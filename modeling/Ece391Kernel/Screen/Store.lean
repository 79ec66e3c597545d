import Ece391Kernel.Screen.Private
import Ece391Kernel.Screen.Frame
import Ece391Kernel.Paging.Invariant
import Ece391Kernel.Screen.Terminal

/-!
# Screens in memory

The video page and the three save pages are separate cells for the loads and
stores of the kernel, as long as the page tables are well formed, so the rules
of a byte store apply to the loops of `lib.c`. `PageShows` says that the page at
an address holds the contents of a screen.
-/

namespace Ece391Kernel

open ByteStore

/-- The bytes of the video page and of the save pages of the terminals. -/
def screenAddrs : Set Nat := fun a =>
  (vidAddr ≤ a ∧ a < vidAddr + fourKB) ∨ (farPage + fourKB ≤ a ∧ a < farPage + 4 * fourKB)

/-- Where they are in physical memory. -/
def screenPhys (a : Nat) : Nat := if a < farPage then a else a - farPage + vidAddr

theorem translate_screen {b : Boot} {pt : PageTables} (h : VideoTables b pt) {a : Nat}
    (ha : a ∈ screenAddrs) : translate b pt false a = some (screenPhys a) := by
  unfold screenPhys
  rcases ha with ⟨hlo, hhi⟩ | ⟨hlo, hhi⟩
  · rw [h.translate_video hlo hhi, if_pos (by simp at hhi ⊢; omega)]
  · simp only [farPage, fourKB] at hlo hhi
    have hsplit : a = farPage + (a - farPage) / fourKB * fourKB + (a - farPage) % fourKB := by
      simp only [farPage, fourKB]
      omega
    have hpage := h.translate_farPage ((a - farPage) / fourKB) ((a - farPage) % fourKB)
      (by simp only [farPage, fourKB]; omega) (Nat.mod_lt _ (by simp))
    rw [← hsplit] at hpage
    rw [hpage, if_neg (by simp only [farPage]; omega)]
    simp only [vidAddr, farPage, fourKB, Option.some.injEq]
    omega

/-- They are below the frames of the processes. -/
theorem screenPhys_lt {a : Nat} (ha : a ∈ screenAddrs) : screenPhys a < eightMB := by
  unfold screenPhys
  rcases ha with ⟨-, hhi⟩ | ⟨hlo, hhi⟩
  · rw [if_pos (by simp at hhi ⊢; omega)]
    simp at hhi ⊢
    omega
  · rw [if_neg (by simp at hlo ⊢; omega)]
    simp at hlo hhi ⊢
    omega

theorem screenPhys_inj {a c : Nat} (ha : a ∈ screenAddrs) (hc : c ∈ screenAddrs)
    (h : screenPhys a = screenPhys c) : a = c := by
  have hlow : ∀ {x}, vidAddr ≤ x ∧ x < vidAddr + fourKB → screenPhys x = x :=
    fun hx => if_pos (by simp at hx ⊢; omega)
  have hhigh : ∀ {x}, farPage + fourKB ≤ x ∧ x < farPage + 4 * fourKB →
      screenPhys x = x - farPage + vidAddr :=
    fun hx => if_neg (by simp at hx ⊢; omega)
  rcases ha with ha | ha <;> rcases hc with hc | hc
  · rwa [hlow ha, hlow hc] at h
  · rw [hlow ha, hhigh hc] at h
    simp only [vidAddr, farPage, fourKB] at ha hc h
    omega
  · rw [hhigh ha, hlow hc] at h
    simp only [vidAddr, farPage, fourKB] at ha hc h
    omega
  · rw [hhigh ha, hhigh hc] at h
    simp only [vidAddr, farPage, fourKB] at ha hc h
    omega

/-- The loads and stores of the kernel. -/
def kernelStore (b : Boot) : Store Kernel where
  get := readByte b
  put := writeByte b

theorem readByte_screen {b : Boot} {k : Kernel} (h : VideoTables b k.paging) {a : Nat}
    (ha : a ∈ screenAddrs) : readByte b k a = k.mem (screenPhys a) := by
  unfold readByte
  rw [translate_screen h ha]

/-- Addresses that the tables of a kind translate to separate places are separate
cells. -/
theorem kernelStore_lawful_of {b : Boot} {P : PageTables → Prop} {D : Set Nat} {phys : Nat → Nat}
    (htranslate : ∀ pt, P pt → ∀ a ∈ D, translate b pt false a = some (phys a))
    (hinj : ∀ a ∈ D, ∀ c ∈ D, phys a = phys c → a = c) :
    Lawful (kernelStore b) (fun k => P k.paging) D where
  put_inv := by
    intro k a v hk ha
    simp only [kernelStore]
    rw [(writeByte_memoryOnly b k a v).screenOnly.paging_eq]
    exact hk
  get_put_same := by
    intro k a v hk ha
    simp only [kernelStore, writeByte, readByte, htranslate _ hk a ha, Function.update_self]
  get_put_ne := by
    intro k a v c hk ha hc hne
    have hphys : phys c ≠ phys a := fun heq => hne (hinj c hc a ha heq)
    simp only [kernelStore, writeByte, readByte, htranslate _ hk a ha, htranslate _ hk c hc,
      Function.update_of_ne hphys]

theorem kernelStore_lawful (b : Boot) :
    Lawful (kernelStore b) (fun k => VideoTables b k.paging) screenAddrs :=
  kernelStore_lawful_of (fun _ hpt _ ha => translate_screen hpt ha)
    fun _ ha _ hc heq => screenPhys_inj ha hc heq

/-! ## Pages -/

/-- The page at an address is the video page or a save page. -/
def IsScreenPage (base : Nat) : Prop := base = vidAddr ∨ ∃ t : Fin 3, base = savePage t

theorem IsScreenPage.mem {base : Nat} (h : IsScreenPage base) {off : Nat} (hoff : off < fourKB) :
    base + off ∈ screenAddrs := by
  simp only [fourKB] at hoff
  rcases h with rfl | ⟨t, rfl⟩
  · left
    simp only [vidAddr, fourKB]
    omega
  · right
    unfold savePage
    simp only [farPage, fourKB]
    omega

/-- The physical page behind a screen page is contiguous. -/
theorem IsScreenPage.screenPhys_add {base : Nat} (h : IsScreenPage base) {off : Nat}
    (hoff : off < fourKB) : screenPhys (base + off) = screenPhys base + off := by
  unfold screenPhys
  simp only [fourKB] at hoff
  rcases h with rfl | ⟨t, rfl⟩
  · rw [if_pos (by simp; omega), if_pos (by simp)]
  · unfold savePage
    rw [if_neg (by simp; omega), if_neg (by simp; omega)]
    simp only [farPage, fourKB, vidAddr]
    omega

/-- The place is in the page at `base`. -/
def InPage (base x : Nat) : Prop := base ≤ x ∧ x < base + fourKB

/-- Memory outside the page at `base` is the same. -/
def SameOutside (base : Nat) (k k' : Kernel) : Prop := ∀ x, ¬InPage base x → k'.mem x = k.mem x

theorem writeByte_screen {b : Boot} {k : Kernel} (h : VideoTables b k.paging) {a : Nat}
    (ha : a ∈ screenAddrs) (c : UInt8) :
    (writeByte b k a c).mem = Function.update k.mem (screenPhys a) c := by
  unfold writeByte
  rw [translate_screen h ha]

/-- Two screen pages are the same or have no byte in common. -/
theorem IsScreenPage.separate {base base' : Nat} (h : IsScreenPage base) (h' : IsScreenPage base')
    (hne : base ≠ base') {off : Nat} (hoff : off < fourKB) :
    base + off < base' ∨ base' + fourKB ≤ base + off := by
  simp only [fourKB] at hoff ⊢
  rcases h with rfl | ⟨t, rfl⟩ <;> rcases h' with rfl | ⟨u, rfl⟩
  · exact absurd rfl hne
  · unfold savePage
    simp only [vidAddr, farPage, fourKB]
    omega
  · unfold savePage
    simp only [vidAddr, farPage, fourKB]
    omega
  · unfold savePage at hne ⊢
    simp only [farPage, fourKB] at hne ⊢
    omega

/-- The address of a cell of the screen at `base`. -/
def cellPos (base row col : Nat) : Nat := base + 2 * (numCols * row + col)

/-- The page at `base` holds the contents of a screen. -/
def PageShows (b : Boot) (k : Kernel) (base : Nat) (cells : Cells) : Prop :=
  ∀ (row : Fin 25) (col : Fin 80), readByte b k (cellPos base row col) = (cells row col).char ∧
    readByte b k (cellPos base row col + 1) = (cells row col).attr

/-- The records of the terminals have no part in what a page shows. -/
theorem PageShows.setTerminal {b : Boot} {k : Kernel} {base : Nat} {cells : Cells}
    (h : PageShows b k base cells) (t : Fin 3) (f : Terminal → Terminal) :
    PageShows b (k.setTerminal t f) base cells := h

/-- The bytes of the other screen pages are the same. -/
def OthersSame (b : Boot) (base : Nat) (k k' : Kernel) : Prop :=
  ∀ a ∈ screenAddrs, a < base ∨ base + fourKB ≤ a → readByte b k' a = readByte b k a

theorem OthersSame.refl (b : Boot) (base : Nat) (k : Kernel) : OthersSame b base k k :=
  fun _ _ _ => rfl

theorem OthersSame.trans {b : Boot} {base : Nat} {k₁ k₂ k₃ : Kernel} (h : OthersSame b base k₁ k₂)
    (h' : OthersSame b base k₂ k₃) : OthersSame b base k₁ k₃ :=
  fun a ha hout => (h' a ha hout).trans (h a ha hout)

/-- Another page shows what it has shown. -/
theorem OthersSame.pageShows {b : Boot} {base base' : Nat} {k k' : Kernel} {cells : Cells}
    (h : OthersSame b base k k') (hbase : IsScreenPage base) (hbase' : IsScreenPage base')
    (hne : base' ≠ base) (hshows : PageShows b k base' cells) : PageShows b k' base' cells := by
  intro row col
  have hrow : 2 * (numCols * row + col) + 1 < fourKB := by simp; omega
  have hsame : ∀ off, off < fourKB → readByte b k' (base' + off) = readByte b k (base' + off) :=
    fun off hoff => h _ (hbase'.mem hoff) (hbase'.separate hbase hne hoff)
  unfold cellPos
  rw [hsame _ (by omega), Nat.add_assoc, hsame _ hrow, ← Nat.add_assoc]
  exact hshows row col

theorem cellPos_mem {base : Nat} (h : IsScreenPage base) {row col : Nat} (hrow : row < 25)
    (hcol : col < 80) :
    cellPos base row col ∈ screenAddrs ∧ cellPos base row col + 1 ∈ screenAddrs := by
  unfold cellPos
  rw [Nat.add_assoc]
  simp only [numCols]
  exact ⟨h.mem (by simp; omega), h.mem (by simp; omega)⟩

/-! ## The loops of the driver -/

section Loops

variable {b : Boot} {k : Kernel} (h : VideoTables b k.paging)
include h

/-- Storing one cell. -/
theorem writeCell_pageShows {base : Nat} (hbase : IsScreenPage base) {cells : Cells}
    (hshows : PageShows b k base cells) (row : Fin 25) (col : Fin 80) (cell : Cell) :
    let k' := writeByte b (writeByte b k (cellPos base row col) cell.char)
      (cellPos base row col + 1) cell.attr
    PageShows b k' base (cells.set row col cell) ∧ OthersSame b base k k' := by
  obtain ⟨hpos, hnext⟩ := cellPos_mem hbase row.isLt col.isLt
  have hk' : VideoTables b (writeByte b k (cellPos base row col) cell.char).paging :=
    (kernelStore_lawful b).put_inv k _ _ h hpos
  have hget : ∀ a ∈ screenAddrs,
      readByte b (writeByte b (writeByte b k (cellPos base row col) cell.char)
        (cellPos base row col + 1) cell.attr) a =
      if a = cellPos base row col + 1 then cell.attr
      else if a = cellPos base row col then cell.char else readByte b k a := by
    intro a ha
    have h₁ := (kernelStore_lawful b).get_put (v := cell.attr) hk' hnext ha
    have h₂ := (kernelStore_lawful b).get_put (v := cell.char) h hpos ha
    simp only [kernelStore] at h₁ h₂
    rw [h₁, h₂]
  refine ⟨?_, ?_⟩
  · intro row' col'
    obtain ⟨hpos', hnext'⟩ := cellPos_mem hbase row'.isLt col'.isLt
    rw [hget _ hpos', hget _ hnext']
    unfold Cells.set
    by_cases hsame : row' = row ∧ col' = col
    · obtain ⟨rfl, rfl⟩ := hsame
      simp
    · have hne : cellPos base row' col' ≠ cellPos base row col := by
        intro heq
        unfold cellPos at heq
        simp only [numCols] at heq
        exact hsame ⟨Fin.ext (by omega), Fin.ext (by omega)⟩
      have hodd : cellPos base row' col' ≠ cellPos base row col + 1 := by
        unfold cellPos
        omega
      have hodd' : cellPos base row' col' + 1 ≠ cellPos base row col := by
        unfold cellPos
        omega
      have hnext_ne : cellPos base row' col' + 1 ≠ cellPos base row col + 1 := by omega
      rw [if_neg hodd, if_neg hne, if_neg hnext_ne, if_neg hodd', if_neg hsame]
      exact hshows row' col'
  · intro a ha hout
    have hin : 2 * (numCols * row + col) + 1 < fourKB := by simp; omega
    rw [hget a ha, if_neg (by unfold cellPos; omega), if_neg (by unfold cellPos; omega)]

/-- The first loop of the scroll helpers: the characters go up by one row. -/
theorem moveUp_spec {base : Nat} (hbase : IsScreenPage base) :
    let k' := Nat.fold numCols
      (fun i _ k => Nat.fold (numRows - 1)
        (fun j _ k => writeByte b k (cellPos base j i) (readByte b k (cellPos base (j + 1) i))) k) k
    VideoTables b k'.paging ∧
    (∀ row < 24, ∀ col < 80,
      readByte b k' (cellPos base row col) = readByte b k (cellPos base (row + 1) col)) ∧
    ∀ a ∈ screenAddrs, (∀ row < 24, ∀ col < 80, a ≠ cellPos base row col) →
      readByte b k' a = readByte b k a := by
  have hmem : ∀ row < 25, ∀ col < 80, cellPos base row col ∈ screenAddrs :=
    fun row hrow col hcol => (cellPos_mem hbase hrow hcol).1
  have hinj : ∀ row row' col col', col < 80 → col' < 80 →
      cellPos base row col = cellPos base row' col' → row = row' ∧ col = col' := by
    intro row row' col col' hcol hcol' heq
    unfold cellPos at heq
    simp only [numCols] at heq
    omega
  apply fold_invariant (fun m k' => VideoTables b k'.paging ∧
    (∀ row < 24, ∀ col < m,
      readByte b k' (cellPos base row col) = readByte b k (cellPos base (row + 1) col)) ∧
    ∀ a ∈ screenAddrs, (∀ row < 24, ∀ col < m, a ≠ cellPos base row col) →
      readByte b k' a = readByte b k a) numCols
  · exact ⟨h, fun row _ col hcol => absurd hcol (Nat.not_lt_zero col), fun a _ _ => rfl⟩
  · intro col hcol k' hk'
    obtain ⟨htables, hdone, hrest⟩ := hk'
    simp only [numCols] at hcol
    -- one column, from the top row down
    obtain ⟨htables', hmoved, hkept⟩ := (kernelStore_lawful b).copy_loop (numRows - 1)
      (fun j => cellPos base j col) (fun j => cellPos base (j + 1) col)
      (fun j hj => hmem j (by simp at hj; omega) col hcol)
      (fun j hj => hmem (j + 1) (by simp at hj; omega) col hcol)
      (fun i _ j _ heq => (hinj i j col col hcol hcol heq).1)
      (fun i _ j hj heq => by
        have hrow := (hinj (i + 1) j col col hcol hcol heq).1
        omega) htables
    refine ⟨htables', ?_, ?_⟩
    · intro row hrow col' hcol'
      rcases Nat.lt_succ_iff_lt_or_eq.mp hcol' with hlt | rfl
      · have hkept' := hkept (cellPos base row col') (hmem row (by omega) col' (by omega))
          fun j _ heq => by
            have hcol := (hinj row j col' col (by omega) hcol heq).2
            omega
        exact hkept'.trans (hdone row hrow col' hlt)
      · refine (hmoved row (by simpa using hrow)).trans
          (hrest _ (hmem (row + 1) (by omega) col' hcol) ?_)
        intro row' _ c hc heq
        have hcol := (hinj (row + 1) row' col' c hcol (by omega) heq).2
        omega
    · intro a ha hout
      refine (hkept a ha fun j hj => hout j (by simpa using hj) col (by omega)).trans
        (hrest a ha fun row hrow col' hcol' => hout row hrow col' (by omega))

/-- Scrolling the screen on a page. -/
theorem scrollAt_pageShows {base : Nat} (hbase : IsScreenPage base) {cells : Cells}
    (hshows : PageShows b k base cells) :
    PageShows b (scrollAt b base k) base (scrolled cells) ∧
      OthersSame b base k (scrollAt b base k) := by
  obtain ⟨htables, hmoved, hkept⟩ := moveUp_spec h hbase
  have hlast : ∀ i < numCols, cellPos base 24 i ∈ screenAddrs ∧
      cellPos base 24 i + 1 ∈ screenAddrs :=
    fun i hi => cellPos_mem hbase (by omega) (by simpa using hi)
  obtain ⟨-, hblank, hrest⟩ := (kernelStore_lawful b).fill_loop numCols (fun i => cellPos base 24 i)
    space attrib (fun i hi => (hlast i hi).1) (fun i hi => (hlast i hi).2)
    (fun i _ j _ heq => by
      unfold cellPos at heq
      omega) htables
  refine ⟨?_, ?_⟩
  · intro row col
    obtain ⟨hpos, hnext⟩ := cellPos_mem hbase row.isLt col.isLt
    have hodd : ∀ r < 24, ∀ c < 80, cellPos base row col + 1 ≠ cellPos base r c := by
      intro r _ c _ heq
      unfold cellPos at heq
      omega
    unfold scrolled
    by_cases hrow : row.val + 1 < 25
    · have hout : ∀ i < numCols, ∀ off ≤ 1, cellPos base row col + off ≠ cellPos base 24 i ∧
          cellPos base row col + off ≠ cellPos base 24 i + 1 := by
        intro i hi off hoff
        unfold cellPos
        simp only [numCols] at hi ⊢
        omega
      rw [dif_pos hrow]
      refine ⟨?_, ?_⟩
      · refine (hrest _ hpos fun i hi => hout i hi 0 (by omega)).trans ?_
        refine (hmoved row (by omega) col col.isLt).trans ?_
        exact (hshows ⟨row + 1, hrow⟩ col).1
      · refine (hrest _ hnext fun i hi => hout i hi 1 (by omega)).trans ?_
        exact (hkept _ hnext hodd).trans (hshows row col).2
    · rw [dif_neg hrow]
      have hrow24 : row.val = 24 := by omega
      rw [hrow24]
      exact hblank col (by simp)
  · intro a ha hout
    have hout' : ∀ row < 25, ∀ col < 80,
        a ≠ cellPos base row col ∧ a ≠ cellPos base row col + 1 := by
      intro row hrow col hcol
      unfold cellPos
      simp only [fourKB, numCols] at hout ⊢
      omega
    refine (hrest a ha fun i hi => hout' 24 (by omega) i (by simpa using hi)).trans ?_
    exact hkept a ha fun row hrow col hcol => (hout' row (by omega) col hcol).1

/-- Clearing the video page. -/
theorem clear_pageShows :
    PageShows b (clear b k) vidAddr blankCells ∧ OthersSame b vidAddr k (clear b k) := by
  have hin : ∀ i < numRows * numCols, vidAddr + 2 * i ∈ screenAddrs ∧
      vidAddr + 2 * i + 1 ∈ screenAddrs := by
    intro i hi
    simp only [numRows, numCols] at hi
    exact ⟨Or.inl (by simp; omega), Or.inl (by simp; omega)⟩
  obtain ⟨-, hblank, hrest⟩ := (kernelStore_lawful b).fill_loop (numRows * numCols)
    (fun i => vidAddr + 2 * i) space attrib (fun i hi => (hin i hi).1) (fun i hi => (hin i hi).2)
    (fun i _ j _ => by omega) h
  refine ⟨fun row col => hblank (numCols * row + col) (by simp; omega), ?_⟩
  intro a ha hout
  refine hrest a ha fun i hi => ?_
  simp only [numRows, numCols] at hi
  simp only [vidAddr, fourKB] at hout ⊢
  omega

/-- Copying one screen page to another, byte by byte. -/
theorem memcpy_bytes {dest src : Nat} (hdest : IsScreenPage dest) (hsrc : IsScreenPage src)
    (hne : dest ≠ src) :
    (∀ off < fourKB,
        readByte b (memcpy b dest src fourKB k) (dest + off) = readByte b k (src + off)) ∧
      OthersSame b dest k (memcpy b dest src fourKB k) := by
  obtain ⟨-, hcopied, hrest⟩ := (kernelStore_lawful b).copy_loop fourKB (fun i => dest + i)
    (fun i => src + i) (fun i hi => hdest.mem hi) (fun i hi => hsrc.mem hi)
    (fun i _ j _ heq => by omega)
    (fun i hi j hj heq => by
      have hsep := hsrc.separate hdest hne.symm hi
      omega) h
  refine ⟨hcopied, fun a ha hout => hrest a ha fun i hi => ?_⟩
  omega

/-- Copying one screen page to another. -/
theorem memcpy_pageShows {dest src : Nat} (hdest : IsScreenPage dest) (hsrc : IsScreenPage src)
    (hne : dest ≠ src) {cells : Cells} (hshows : PageShows b k src cells) :
    PageShows b (memcpy b dest src fourKB k) dest cells ∧
      OthersSame b dest k (memcpy b dest src fourKB k) := by
  obtain ⟨hcopy, hothers⟩ := memcpy_bytes h hdest hsrc hne
  refine ⟨fun row col => ?_, hothers⟩
  have hin : 2 * (numCols * row + col) + 1 < fourKB := by simp; omega
  obtain ⟨hchar, hattr⟩ := hshows row col
  unfold cellPos at hchar hattr ⊢
  rw [Nat.add_assoc] at hattr ⊢
  rw [hcopy _ (by omega), hcopy _ hin]
  exact ⟨hchar, hattr⟩

/-- Only the physical page behind the destination changes. -/
theorem memcpy_sameOutside {dest : Nat} (hdest : IsScreenPage dest) (src : Nat) {n : Nat}
    (hn : n ≤ fourKB) : SameOutside (screenPhys dest) k (memcpy b dest src n k) := by
  have hloop := fold_invariant
    (fun _ k' => VideoTables b k'.paging ∧ SameOutside (screenPhys dest) k k') n
    (fun i _ k => writeByte b k (dest + i) (readByte b k (src + i))) k ⟨h, fun _ _ => rfl⟩
    fun i hi k' hk' => by
      obtain ⟨htables, hsame⟩ := hk'
      have hlt : i < fourKB := Nat.lt_of_lt_of_le hi hn
      refine ⟨(kernelStore_lawful b).put_inv k' (dest + i) _ htables (hdest.mem hlt), ?_⟩
      intro x hx
      rw [writeByte_screen htables (hdest.mem hlt), hdest.screenPhys_add hlt,
        Function.update_of_ne (fun heq => hx ⟨by omega, by omega⟩)]
      exact hsame x hx
  exact hloop.2

/-- The physical page behind the destination is that behind the source. -/
theorem memcpy_mem {dest src : Nat} (hdest : IsScreenPage dest) (hsrc : IsScreenPage src)
    (hne : dest ≠ src) {off : Nat} (hoff : off < fourKB) :
    (memcpy b dest src fourKB k).mem (screenPhys dest + off) = k.mem (screenPhys src + off) := by
  have hbyte := (memcpy_bytes h hdest hsrc hne).1 off hoff
  have htables' : VideoTables b (memcpy b dest src fourKB k).paging := by
    rw [(memcpy_memoryOnly b dest src fourKB k).screenOnly.paging_eq]
    exact h
  rwa [readByte_screen htables' (hdest.mem hoff), readByte_screen h (hsrc.mem hoff),
    hdest.screenPhys_add hoff, hsrc.screenPhys_add hoff] at hbyte

theorem clear_sameOutside : SameOutside vidAddr k (clear b k) := by
  have hvideo : IsScreenPage vidAddr := Or.inl rfl
  have hphys : screenPhys vidAddr = vidAddr := by decide
  have hloop := fold_invariant
    (fun _ k' => VideoTables b k'.paging ∧ SameOutside vidAddr k k') (numRows * numCols)
    (fun i _ k =>
      writeByte b (writeByte b k (vidAddr + 2 * i) space) (vidAddr + 2 * i + 1) attrib) k
    ⟨h, fun _ _ => rfl⟩
    fun i hi k' hk' => by
      obtain ⟨htables, hsame⟩ := hk'
      have hlt : 2 * i + 1 < fourKB := by simp at hi ⊢; omega
      have hlt' : 2 * i < fourKB := by omega
      have htables' : VideoTables b (writeByte b k' (vidAddr + 2 * i) space).paging :=
        (kernelStore_lawful b).put_inv k' _ space htables (hvideo.mem hlt')
      refine ⟨(kernelStore_lawful b).put_inv _ _ attrib htables' (hvideo.mem hlt), fun x hx => ?_⟩
      have hne : x ≠ vidAddr + (2 * i + 1) := fun heq => hx ⟨by omega, by omega⟩
      have hne' : x ≠ vidAddr + 2 * i := fun heq => hx ⟨by omega, by omega⟩
      rw [Nat.add_assoc, writeByte_screen htables' (hvideo.mem hlt),
        hvideo.screenPhys_add hlt, hphys,
        Function.update_of_ne hne, writeByte_screen htables (hvideo.mem hlt'),
        hvideo.screenPhys_add hlt', hphys, Function.update_of_ne hne']
      exact hsame x hx
  exact hloop.2

end Loops

/-! ## The blank pages of a new terminal -/

/-- The pages that `terminal_init` writes through the tables of `INIT_PAGE`. -/
def initAddrs : Set Nat := fun a => farPage ≤ a ∧ a < farPage + fishBound * fourKB

theorem translate_initPage (b : Boot) (pt : PageTables) {a : Nat} (ha : a ∈ initAddrs) :
    translate b (initPage b pt) false a = some (a - farPage + vidAddr) := by
  obtain ⟨hlo, hhi⟩ := ha
  simp only [farPage, fishBound, fourKB] at hlo hhi
  have hdir : a / fourMB = userVidPage := by simp; omega
  have hidx : a / fourKB % kbSize = videoIndex + (a - farPage) / fourKB := by simp; omega
  have hn : (a - farPage) / fourKB < fishBound := by simp; omega
  have hpte : (initPage b pt).userVideoPageTable (a / fourKB % kbSize) =
      (vidAddr + (a - farPage) / fourKB * fourKB) ||| (wp ||| userFlag) := by
    rw [hidx]
    generalize (a - farPage) / fourKB = n at hn
    simp only [fishBound] at hn
    interval_cases n <;> simp [initPage, setEntries, entry_or_or]
  rw [(initPage_videoTables b pt).translate_entry hdir hpte]
  simp only [vidAddr, farPage, fourKB, Option.some.injEq]
  omega

/-- The rule of the outer loop of `terminal_init`. -/
theorem blankPages_invariant {b : Boot} {k : Kernel} (P : Nat → Kernel → Prop) (h0 : P 0 k)
    (hstep : ∀ i < processSize, ∀ k, P i k → P (i + 1) (Nat.fold (numRows * numCols)
      (fun j _ k =>
        writeByte b (writeByte b k (farPage + i * fourKB + fourKB + 2 * j) space)
          (farPage + i * fourKB + fourKB + 2 * j + 1) attrib) k)) :
    P processSize (blankPages b k) :=
  fold_invariant P processSize _ k h0 hstep

/-- `terminal_init` blanks the save pages. -/
theorem blankPages_pageShows {b : Boot} {k : Kernel} (pt : PageTables)
    (hpaging : k.paging = initPage b pt) (t : Fin 3) :
    PageShows b (blankPages b k) (savePage t) blankCells := by
  have hlawful : Lawful (kernelStore b) (fun k => k.paging = initPage b pt) initAddrs :=
    kernelStore_lawful_of (P := fun pt' => pt' = initPage b pt) (D := initAddrs)
      (fun _ hpt _ ha => by rw [hpt]; exact translate_initPage b pt ha)
      fun a ha c hc heq => by
        obtain ⟨hlo, -⟩ := ha
        obtain ⟨hlo', -⟩ := hc
        omega
  have hin : ∀ i < processSize, ∀ j < numRows * numCols,
      farPage + i * fourKB + fourKB + 2 * j ∈ initAddrs ∧
      farPage + i * fourKB + fourKB + 2 * j + 1 ∈ initAddrs := by
    intro i hi j hj
    simp only [processSize, numRows, numCols] at hi hj
    exact ⟨⟨by simp; omega, by simp; omega⟩, ⟨by simp; omega, by simp; omega⟩⟩
  have hpages : (blankPages b k).paging = initPage b pt ∧
      ∀ i < processSize, ∀ j < numRows * numCols,
        readByte b (blankPages b k) (farPage + i * fourKB + fourKB + 2 * j) = space ∧
        readByte b (blankPages b k) (farPage + i * fourKB + fourKB + 2 * j + 1) = attrib := by
    apply blankPages_invariant (fun m k' => k'.paging = initPage b pt ∧
      ∀ i < m, ∀ j < numRows * numCols,
        readByte b k' (farPage + i * fourKB + fourKB + 2 * j) = space ∧
        readByte b k' (farPage + i * fourKB + fourKB + 2 * j + 1) = attrib)
    · exact ⟨hpaging, fun i hi => absurd hi (Nat.not_lt_zero i)⟩
    · intro i hi k' hk'
      obtain ⟨htables, hdone⟩ := hk'
      obtain ⟨htables', hblank, hrest⟩ := hlawful.fill_loop (numRows * numCols)
        (fun j => farPage + i * fourKB + fourKB + 2 * j) space attrib
        (fun j hj => (hin i hi j hj).1) (fun j hj => (hin i hi j hj).2)
        (fun j _ j' _ => by omega) htables
      refine ⟨htables', fun i' hi' j hj => ?_⟩
      rcases Nat.lt_succ_iff_lt_or_eq.mp hi' with hlt | rfl
      · -- an earlier page keeps its blanks
        have hne : ∀ j' < numRows * numCols,
            (farPage + i' * fourKB + fourKB + 2 * j ≠ farPage + i * fourKB + fourKB + 2 * j' ∧
              farPage + i' * fourKB + fourKB + 2 * j ≠
                farPage + i * fourKB + fourKB + 2 * j' + 1) ∧
            farPage + i' * fourKB + fourKB + 2 * j + 1 ≠ farPage + i * fourKB + fourKB + 2 * j' ∧
              farPage + i' * fourKB + fourKB + 2 * j + 1 ≠
                farPage + i * fourKB + fourKB + 2 * j' + 1 := by
          intro j' hj'
          simp only [numRows, numCols] at hj hj'
          simp only [farPage, fourKB]
          omega
        obtain ⟨hchar, hattr⟩ := hdone i' hlt j hj
        obtain ⟨hpos, hnext⟩ := hin i' (by omega) j hj
        exact ⟨(hrest _ hpos fun j' hj' => (hne j' hj').1).trans hchar,
          (hrest _ hnext fun j' hj' => (hne j' hj').2).trans hattr⟩
      · exact hblank j hj
  intro row col
  unfold cellPos savePage
  exact hpages.2 t (by simp; omega) (numCols * row + col) (by simp; omega)

end Ece391Kernel
