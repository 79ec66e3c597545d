import Ece391Kernel.Screen.Store
import Ece391Kernel.Screen.Terminal
import Ece391Kernel.FileSystem.Image

/-!
# Three terminals are three private screens

The kernel has one video page, which shows one terminal, and keeps the screens
of the others in save pages. A terminal prints into video memory or into its
save page, whichever holds its screen, and the two ways of printing have the
same effect on the screen. Displaying another terminal changes the places of the
screens and not the screens.
-/

namespace Ece391Kernel

open ByteStore

/-- The page that holds the screen of a terminal. -/
def screenPage (k : Kernel) (t : Fin 3) : Nat :=
  if t = k.displayedTerminal then vidAddr else savePage t

/-- The page at `base` and the cursor of terminal `t` are those of a screen. -/
structure ShowsAt (b : Boot) (k : Kernel) (base : Nat) (t : Fin 3) (s : Screen) : Prop where
  contents : PageShows b k base s.cells
  row : (k.terminals t).screenY = s.row.val
  col : (k.terminals t).screenX = s.col.val

/-- Terminal `t` shows a screen. -/
def Shows (b : Boot) (k : Kernel) (t : Fin 3) (s : Screen) : Prop :=
  ShowsAt b k (screenPage k t) t s

theorem screenPage_isScreenPage (k : Kernel) (t : Fin 3) : IsScreenPage (screenPage k t) := by
  unfold screenPage
  split
  · exact Or.inl rfl
  · exact Or.inr ⟨t, rfl⟩

theorem savePage_ne_vidAddr (t : Fin 3) : savePage t ≠ vidAddr := by
  unfold savePage
  simp
  omega

theorem savePage_inj {t u : Fin 3} (h : savePage t = savePage u) : t = u := by
  unfold savePage at h
  simp only [farPage, fourKB] at h
  exact Fin.ext (by omega)

theorem screenPage_ne (k : Kernel) {t u : Fin 3} (h : t ≠ u) : screenPage k t ≠ screenPage k u := by
  unfold screenPage
  split <;> split
  · rename_i ht hu
    exact absurd (ht.trans hu.symm) h
  · exact (savePage_ne_vidAddr u).symm
  · exact savePage_ne_vidAddr t
  · exact fun heq => h (savePage_inj heq)

/-! ## Printing on one page -/

/-- Printing on terminal `t`, whose screen is at `base`, leaves the other pages
and the other cursors alone. -/
structure PrintsOn (b : Boot) (base : Nat) (t : Fin 3) (k k' : Kernel) : Prop where
  screenOnly : ScreenOnly k k'
  others : OthersSame b base k k'
  cursors : ∀ u, u ≠ t → (k'.terminals u).screenX = (k.terminals u).screenX ∧
    (k'.terminals u).screenY = (k.terminals u).screenY

namespace PrintsOn

variable {b : Boot} {base : Nat} {t : Fin 3}

theorem trans {k₁ k₂ k₃ : Kernel} (h : PrintsOn b base t k₁ k₂) (h' : PrintsOn b base t k₂ k₃) :
    PrintsOn b base t k₁ k₃ where
  screenOnly := h.screenOnly.trans h'.screenOnly
  others := h.others.trans h'.others
  cursors := fun u hu =>
    ⟨(h'.cursors u hu).1.trans (h.cursors u hu).1, (h'.cursors u hu).2.trans (h.cursors u hu).2⟩

theorem refl (k : Kernel) : PrintsOn b base t k k where
  screenOnly := ScreenOnly.refl k
  others := OthersSame.refl b base k
  cursors := fun _ _ => ⟨rfl, rfl⟩

theorem of_memory {k k' : Kernel} (h : MemoryOnly k k') (hothers : OthersSame b base k k') :
    PrintsOn b base t k k' where
  screenOnly := h.screenOnly
  others := hothers
  cursors := fun u _ => by rw [h.terminals_eq]; exact ⟨rfl, rfl⟩

theorem of_cursor (k : Kernel) (x y : Terminal → Int) :
    PrintsOn b base t k
      (k.setTerminal t fun term => { term with screenX := x term, screenY := y term }) where
  screenOnly := ScreenOnly.of_cursor k t x y
  others := fun _ _ _ => rfl
  cursors := fun u hu => by rw [Kernel.setTerminal_terminals_ne k _ hu]; exact ⟨rfl, rfl⟩

theorem videoTables {k k' : Kernel} (h : PrintsOn b base t k k')
    (htables : VideoTables b k.paging) : VideoTables b k'.paging := by
  rw [h.screenOnly.paging_eq]
  exact htables

end PrintsOn

theorem cellAddr_eq {base : Nat} (hbase : IsScreenPage base) (row : Fin 25) (col : Fin 80) :
    cellAddr base col.val row.val = cellPos base row col := by
  obtain ⟨hpos, -⟩ := cellPos_mem hbase row.isLt col.isLt
  have hlt : cellPos base row col < 0x100000000 := by
    rcases hpos with ⟨-, hhi⟩ | ⟨-, hhi⟩
    · simp only [vidAddr, fourKB] at hhi
      omega
    · simp only [farPage, fourKB] at hhi
      omega
  have hcast : (base + 2 * (numCols * (row.val : Int) + col.val) : Int) =
      ((cellPos base row col : Nat) : Int) := by
    unfold cellPos
    push_cast
    rfl
  unfold cellAddr
  rw [hcast, uint32_of_lt hlt]

section Printing

variable {b : Boot} {k : Kernel} {base : Nat} {t : Fin 3} {s : Screen}

theorem lineFeedAt_shows (htables : VideoTables b k.paging) (hbase : IsScreenPage base)
    (hcontents : PageShows b k base s.cells) (hrow : (k.terminals t).screenY = s.row.val) :
    ShowsAt b (lineFeedAt b base t k) base t s.lineFeed ∧
      PrintsOn b base t k (lineFeedAt b base t k) := by
  have hfeed : PrintsOn b base t k _ :=
    PrintsOn.of_cursor k (fun _ => 0) (fun term => term.screenY + 1)
  unfold lineFeedAt lineFeedWith Screen.lineFeed
  simp only [directAccess_state, directAccess_silently, scrollWith_directAccess,
    Kernel.setTerminal_terminals_same]
  by_cases hlast : s.row.val + 1 < 25
  · rw [if_neg (by rw [hrow]; simp; omega), dif_pos hlast]
    exact ⟨⟨hcontents, by simp [hrow], by simp⟩, hfeed⟩
  · rw [if_pos (by rw [hrow]; simp; omega), dif_neg hlast]
    have hmove := hfeed.trans (PrintsOn.of_cursor _ (fun term => term.screenX) fun _ => numRows - 1)
    obtain ⟨hscrolled, hothers⟩ := scrollAt_pageShows (hmove.videoTables htables) hbase hcontents
    have hmem := scrollAt_memoryOnly b base
      ((k.setTerminal t fun term =>
        { term with screenX := 0, screenY := term.screenY + 1 }).setTerminal t
          fun term => { term with screenY := numRows - 1 })
    refine ⟨⟨hscrolled, ?_, ?_⟩, hmove.trans (PrintsOn.of_memory hmem hothers)⟩
    · rw [hmem.terminals_eq]
      simp only [Kernel.setTerminal_terminals_same]
      rfl
    · rw [hmem.terminals_eq]
      simp

theorem putcAt_shows (htables : VideoTables b k.paging) (hbase : IsScreenPage base)
    (hs : ShowsAt b k base t s) (c : UInt8) :
    ShowsAt b (putcAt b base t c k) base t (s.print c) ∧
      PrintsOn b base t k (putcAt b base t c k) := by
  unfold putcAt putcWith Screen.print
  split
  · exact lineFeedAt_shows htables hbase hs.contents hs.row
  · simp only [directAccess_state, directAccess_silently, storeCell_directAccess,
      lineFeedWith_directAccess, hs.row, hs.col, cellAddr_eq hbase]
    obtain ⟨hcell, hothers⟩ := writeCell_pageShows htables hbase hs.contents s.row s.col ⟨c, attrib⟩
    have hmem := (writeByte_memoryOnly b k (cellPos base s.row s.col) c).trans
      (writeByte_memoryOnly b _ (cellPos base s.row s.col + 1) attrib)
    have hput := (PrintsOn.of_memory (t := t) hmem hothers).trans
      (PrintsOn.of_cursor _ (fun term => term.screenX + 1) (fun term => term.screenY))
    simp only [Kernel.setTerminal_terminals_same, hmem.terminals_eq, hs.col]
    by_cases hend : s.col.val + 1 < 80
    · rw [if_neg (by simp; omega), dif_pos hend]
      exact ⟨⟨hcell, by simp [hmem.terminals_eq, hs.row],
          by simp [hmem.terminals_eq, hs.col]⟩, hput⟩
    · rw [if_pos (by simp; omega), dif_neg hend]
      obtain ⟨hshows, hprints⟩ := lineFeedAt_shows (t := t)
        (s := { s with cells := s.cells.set s.row s.col ⟨c, attrib⟩ })
        (hput.videoTables htables) hbase hcell (by simp [hmem.terminals_eq, hs.row])
      exact ⟨hshows, hput.trans hprints⟩

theorem backspace_shows (htables : VideoTables b k.paging)
    (hs : ShowsAt b k vidAddr k.displayedTerminal s) :
    ShowsAt b (backspace b k) vidAddr k.displayedTerminal s.backspace ∧
      PrintsOn b vidAddr k.displayedTerminal k (backspace b k) := by
  have hbase : IsScreenPage vidAddr := Or.inl rfl
  have hzero : ∀ n : Nat, ((n : Int) = 0) = (n = 0) := fun n => by simp
  unfold backspace backspaceWith Screen.backspace
  simp only [directAccess_state, directAccess_silently, storeCell_directAccess,
    putcWith_directAccess, hs.row, hs.col, hzero]
  split
  · exact ⟨hs, PrintsOn.refl k⟩
  · rename_i hhome
    split
    · rename_i hcol
      -- the cursor goes back to the end of the row above
      have hmove : PrintsOn b vidAddr k.displayedTerminal k _ := PrintsOn.of_cursor k
        (fun _ => numCols - 1) (fun term => term.screenY - 1)
      have hrow : (s.row.val : Int) - 1 = ((s.row.val - 1 : Nat) : Int) := by omega
      have haddr := cellAddr_eq hbase ⟨s.row.val - 1, by omega⟩ 79
      obtain ⟨hcell, hothers⟩ := writeCell_pageShows (hmove.videoTables htables) hbase
        (show PageShows b _ vidAddr s.cells from hs.contents) ⟨s.row.val - 1, by omega⟩ 79 blankCell
      have hmem := (writeByte_memoryOnly b
        (k.setTerminal k.displayedTerminal fun term =>
          { term with screenX := numCols - 1, screenY := term.screenY - 1 })
        (cellPos vidAddr (s.row.val - 1) 79) space).trans
        (writeByte_memoryOnly b _ (cellPos vidAddr (s.row.val - 1) 79 + 1) attrib)
      have hsame : cellAddr vidAddr (numCols - 1) ((s.row.val : Int) - 1) =
          cellPos vidAddr (s.row.val - 1) 79 := by
        rw [hrow]
        exact haddr
      simp only [Kernel.setTerminal_terminals_same, hs.row, hsame]
      refine ⟨⟨hcell, ?_, ?_⟩, hmove.trans (PrintsOn.of_memory hmem hothers)⟩
      · rw [hmem.terminals_eq]
        simp only [Kernel.setTerminal_terminals_same, hs.row]
        exact hrow
      · rw [hmem.terminals_eq]
        simp only [Kernel.setTerminal_terminals_same]
        rfl
    · rename_i hcol
      -- a blank printed over the cell before moves the cursor on again
      have hmove : PrintsOn b vidAddr k.displayedTerminal k _ := PrintsOn.of_cursor k
        (fun term => term.screenX - 1) (fun term => term.screenY)
      have hcast : (s.col.val : Int) - 1 = ((s.col.val - 1 : Nat) : Int) := by omega
      have hback : ShowsAt b
          (k.setTerminal k.displayedTerminal fun term => { term with screenX := term.screenX - 1 })
          vidAddr k.displayedTerminal { s with col := ⟨s.col.val - 1, by omega⟩ } :=
        ⟨hs.contents, by simp [hs.row],
          by simp only [Kernel.setTerminal_terminals_same, hs.col]; exact hcast⟩
      obtain ⟨hprinted, hprints⟩ := putcAt_shows (hmove.videoTables htables) hbase hback space
      have hspace : ¬(space = newline ∨ space = carriageReturn) := by decide
      have hcol' : s.col.val - 1 + 1 < 80 := by omega
      unfold Screen.print at hprinted
      simp only [if_neg hspace, dif_pos hcol'] at hprinted
      have hlast : PrintsOn b vidAddr k.displayedTerminal _ _ := PrintsOn.of_cursor
        (putcAt b vidAddr k.displayedTerminal space
          (k.setTerminal k.displayedTerminal fun term => { term with screenX := term.screenX - 1 }))
        (fun term => term.screenX - 1) (fun term => term.screenY)
      refine ⟨⟨hprinted.contents, ?_, ?_⟩, (hmove.trans hprints).trans hlast⟩
      · simp only [Kernel.setTerminal_terminals_same]
        exact hprinted.row
      · have hcolumn := hprinted.col
        simp only at hcolumn
        simp only [Kernel.setTerminal_terminals_same, Kernel.setTerminal_displayedTerminal, hcolumn]
        omega

/-- Control-L clears the screen that is displayed. -/
theorem clearScreen_shows (htables : VideoTables b k.paging) :
    ShowsAt b (clearBuffer (clear b k)) vidAddr k.displayedTerminal Screen.clear ∧
      PrintsOn b vidAddr k.displayedTerminal k (clearBuffer (clear b k)) := by
  obtain ⟨hblank, hothers⟩ := clear_pageShows htables
  have hmem := clear_memoryOnly b k
  have hdisplayed : (clear b k).displayedTerminal = k.displayedTerminal :=
    hmem.screenOnly.displayedTerminal_eq
  have hprints := (PrintsOn.of_memory (t := k.displayedTerminal) hmem hothers).trans
    (PrintsOn.of_cursor (clear b k) (fun _ => 0) fun _ => 0)
  unfold clearBuffer resetScreen
  rw [hdisplayed]
  exact ⟨⟨hblank.setTerminal _ _, by simp [Screen.clear], by simp [Screen.clear]⟩, hprints⟩

end Printing

/-! ## The three screens -/

/-- The tables are well formed, and terminal `t` shows the screen `S t`. -/
def Multiplexed (b : Boot) (k : Kernel) (S : Fin 3 → Screen) : Prop :=
  VideoTables b k.paging ∧ ∀ t, Shows b k t (S t)

section Multiplexing

variable {b : Boot} {k : Kernel} {S : Fin 3 → Screen}

/-- Printing on the screen of one terminal. -/
theorem Multiplexed.print (h : Multiplexed b k S) {t : Fin 3} {k' : Kernel} {s : Screen}
    (hs : ShowsAt b k' (screenPage k t) t s) (hprints : PrintsOn b (screenPage k t) t k k') :
    Multiplexed b k' (Function.update S t s) := by
  obtain ⟨htables, hshows⟩ := h
  have hpage : ∀ u, screenPage k' u = screenPage k u := by
    intro u
    unfold screenPage
    rw [hprints.screenOnly.displayedTerminal_eq]
  refine ⟨hprints.videoTables htables, fun u => ?_⟩
  unfold Shows
  rw [hpage]
  by_cases hu : u = t
  · subst hu
    rw [Function.update_self]
    exact hs
  · rw [Function.update_of_ne hu]
    have hsame := hprints.others.pageShows (screenPage_isScreenPage k t)
      (screenPage_isScreenPage k u) (screenPage_ne k hu) (hshows u).contents
    obtain ⟨hx, hy⟩ := hprints.cursors u hu
    exact ⟨hsame, hy.trans (hshows u).row, hx.trans (hshows u).col⟩

/-- The two ways of printing a character are one. -/
theorem writeChar_eq (b : Boot) {c : UInt8} (hc : c ≠ 0) (k : Kernel) :
    writeChar b c k = putcAt b (screenPage k k.executingTerminal) k.executingTerminal c k := by
  unfold writeChar screenPage
  rw [if_pos hc]
  split
  · rename_i hdisplayed
    rw [hdisplayed]
    rfl
  · rfl

theorem Multiplexed.writeChar (h : Multiplexed b k S) (c : UInt8) :
    Multiplexed b (writeChar b c k) (Function.update S k.executingTerminal
      (([c].filter (· ≠ 0)).foldl (fun s c => s.print c) (S k.executingTerminal))) := by
  by_cases hc : c = 0
  · have hskip : Ece391Kernel.writeChar b c k = k := by
      unfold Ece391Kernel.writeChar
      rw [if_neg (not_not.mpr hc)]
    rw [hskip, List.filter_cons_of_neg (by simpa using hc)]
    simpa using h
  · obtain ⟨hs, hprints⟩ := putcAt_shows h.1 (screenPage_isScreenPage k k.executingTerminal)
      (h.2 k.executingTerminal) c
    rw [writeChar_eq b hc, List.filter_cons_of_pos (by simpa using hc)]
    exact h.print hs hprints

/-- The loop of `terminal_write`. -/
theorem Multiplexed.writeLoop (h : Multiplexed b k S) (n : Nat) (bytes : Int → UInt8) :
    Multiplexed b (Nat.fold n (fun i _ k => Ece391Kernel.writeChar b (bytes i) k) k)
      (Function.update S k.executingTerminal
        ((((List.range n).map fun i : Nat => bytes i).filter (· ≠ 0)).foldl
          (fun s c => s.print c) (S k.executingTerminal))) := by
  have hloop := fold_invariant (fun m k' => k'.executingTerminal = k.executingTerminal ∧
    Multiplexed b k' (Function.update S k.executingTerminal
      ((((List.range m).map fun i : Nat => bytes i).filter (· ≠ 0)).foldl
        (fun s c => s.print c) (S k.executingTerminal)))) n
    (fun i _ k => Ece391Kernel.writeChar b (bytes i) k) k
    ⟨rfl, by simpa using h⟩
    (by
      intro i _ k' hk'
      obtain ⟨hexecuting, hk'⟩ := hk'
      have hnext := hk'.writeChar (bytes i)
      rw [hexecuting, Function.update_self, Function.update_idem] at hnext
      refine ⟨(writeChar_screenOnly b _ k').executingTerminal_eq.trans hexecuting, ?_⟩
      rw [List.range_succ, List.map_append, List.filter_append, List.foldl_append]
      exact hnext)
  exact hloop.2

/-- Other tables and the same memory below the frames of the processes. -/
theorem PageShows.of_mem {k k' : Kernel} {base : Nat} {cells : Cells}
    (hshows : PageShows b k base cells) (hbase : IsScreenPage base)
    (htables : VideoTables b k.paging) (htables' : VideoTables b k'.paging)
    (hmem : ∀ x < eightMB, k'.mem x = k.mem x) : PageShows b k' base cells := by
  intro row col
  obtain ⟨hpos, hnext⟩ := cellPos_mem hbase row.isLt col.isLt
  have hrow := hshows row col
  rw [readByte_screen htables hpos, readByte_screen htables hnext] at hrow
  rw [readByte_screen htables' hpos, readByte_screen htables' hnext,
    hmem _ (screenPhys_lt hpos), hmem _ (screenPhys_lt hnext)]
  exact hrow

/-- `switch_active_terminal` in terms of save pages. -/
theorem switchActiveTerminal_savePages (b : Boot) (t : Fin 3) (k : Kernel) :
    switchActiveTerminal b t k = showTerminal t (memcpy b vidAddr (savePage t) fourKB
      (clear b (memcpy b (savePage k.displayedTerminal) vidAddr fourKB k))) := by
  have haddr : ∀ u : Fin 3, farPage + (u + 1) * fourKB = savePage u := by
    intro u
    unfold savePage
    simp only [farPage, fourKB]
    omega
  unfold switchActiveTerminal
  rw [haddr, haddr]

/-- The tables are well formed, and the screen of terminal `t` has the contents `C t`. -/
def PagesShow (b : Boot) (k : Kernel) (C : Fin 3 → Cells) : Prop :=
  VideoTables b k.paging ∧ ∀ t, PageShows b k (screenPage k t) (C t)

/-- A terminal becomes the displayed one, when its screen is already in place. -/
theorem PagesShow.showTerminal {C : Fin 3 → Cells} (htables : VideoTables b k.paging) {t : Fin 3}
    (hvideo : PageShows b k vidAddr (C t)) (hsaved : ∀ u, PageShows b k (savePage u) (C u)) :
    PagesShow b (showTerminal t k) C := by
  have htables' : VideoTables b (Ece391Kernel.showTerminal t k).paging :=
    htables.switchTables k.displayedTerminal t
  refine ⟨htables', fun u => ?_⟩
  have hpage : screenPage (Ece391Kernel.showTerminal t k) u =
      if u = t then vidAddr else savePage u := rfl
  rw [hpage]
  by_cases hu : u = t
  · rw [if_pos hu, hu]
    exact hvideo.of_mem (Or.inl rfl) htables htables' fun _ _ => rfl
  · rw [if_neg hu]
    exact (hsaved u).of_mem (Or.inr ⟨u, rfl⟩) htables htables' fun _ _ => rfl

/-- Displaying a terminal changes the contents of no screen. -/
theorem PagesShow.switchActiveTerminal {C : Fin 3 → Cells} (h : PagesShow b k C) (t : Fin 3) :
    PagesShow b (switchActiveTerminal b t k) C := by
  obtain ⟨htables, hshows⟩ := h
  have hvideo : IsScreenPage vidAddr := Or.inl rfl
  have hsave : ∀ u, IsScreenPage (savePage u) := fun u => Or.inr ⟨u, rfl⟩
  have hdisplayed : PageShows b k vidAddr (C k.displayedTerminal) := by
    have hshown := hshows k.displayedTerminal
    unfold screenPage at hshown
    rwa [if_pos rfl] at hshown
  -- the displayed screen is saved, so that every save page is up to date
  obtain ⟨hcopied, hothers₁⟩ := memcpy_pageShows htables (hsave k.displayedTerminal) hvideo
    (savePage_ne_vidAddr _) hdisplayed
  have hmem₁ := memcpy_memoryOnly b (savePage k.displayedTerminal) vidAddr fourKB k
  have hsaved : ∀ u, PageShows b (memcpy b (savePage k.displayedTerminal) vidAddr fourKB k)
      (savePage u) (C u) := by
    intro u
    by_cases hu : u = k.displayedTerminal
    · rw [hu]
      exact hcopied
    · have hshown := hshows u
      unfold screenPage at hshown
      rw [if_neg hu] at hshown
      exact hothers₁.pageShows (hsave _) (hsave u) (fun heq => hu (savePage_inj heq)) hshown
  have htables₁ : VideoTables b
      (memcpy b (savePage k.displayedTerminal) vidAddr fourKB k).paging := by
    rw [hmem₁.screenOnly.paging_eq]
    exact htables
  obtain ⟨-, hothers₂⟩ := clear_pageShows htables₁
  have hmem₂ := clear_memoryOnly b (memcpy b (savePage k.displayedTerminal) vidAddr fourKB k)
  have hcleared : ∀ u, PageShows b
      (clear b (memcpy b (savePage k.displayedTerminal) vidAddr fourKB k)) (savePage u) (C u) :=
    fun u => hothers₂.pageShows hvideo (hsave u) (savePage_ne_vidAddr u) (hsaved u)
  have htables₂ : VideoTables b
      (clear b (memcpy b (savePage k.displayedTerminal) vidAddr fourKB k)).paging := by
    rw [hmem₂.screenOnly.paging_eq]
    exact htables₁
  -- the screen of the new terminal comes back from its save page
  obtain ⟨hrestored, hothers₃⟩ := memcpy_pageShows htables₂ hvideo (hsave t)
    (savePage_ne_vidAddr t).symm (hcleared t)
  have hmem := switchLoops_memoryOnly b (savePage k.displayedTerminal) (savePage t) k
  rw [switchActiveTerminal_savePages]
  refine PagesShow.showTerminal ?_ hrestored
    fun u => hothers₃.pageShows hvideo (hsave u) (savePage_ne_vidAddr u) (hcleared u)
  rw [hmem.screenOnly.paging_eq]
  exact htables

/-- Displaying a terminal changes no screen. -/
theorem Multiplexed.switchActiveTerminal (h : Multiplexed b k S) (t : Fin 3) :
    Multiplexed b (switchActiveTerminal b t k) S := by
  obtain ⟨htables, hshows⟩ := h
  have hpages : PagesShow b k fun u => (S u).cells := ⟨htables, fun u => (hshows u).contents⟩
  obtain ⟨htables', hpages'⟩ := hpages.switchActiveTerminal t
  refine ⟨htables', fun u => ⟨hpages' u, ?_, ?_⟩⟩
  · rw [switchActiveTerminal_terminals]
    exact (hshows u).row
  · rw [switchActiveTerminal_terminals]
    exact (hshows u).col

end Multiplexing

/-! ## Runs -/

/-- What happens to the terminals after boot. -/
inductive TermOp
  | write (buf : Buffer) (nbytes : Int)
  | key (mode : Fin 4) (scancode : Nat)
  | enter
  | backspace
  | clearScreen
  | schedule (t : Fin 3)
  | display (t : Fin 3)

/-- The code that runs: `terminal_write` of the executing terminal, the echo of a
key, of the enter key and of backspace, control-L, the scheduler, and the keys
that display a terminal. -/
def TermOp.apply (b : Boot) (k : Kernel) : TermOp → Kernel
  | .write buf nbytes => (terminalWrite b buf nbytes k).2
  | .key mode c => outKey b mode c k
  | .enter => putc b newline k
  | .backspace => Ece391Kernel.backspace b k
  | .clearScreen => clearBuffer (clear b k)
  | .schedule t => { k with executingTerminal := t }
  | .display t => switchActiveTerminal b t k

def runTermOps (b : Boot) (ops : List TermOp) (k : Kernel) : Kernel :=
  ops.foldl (TermOp.apply b) k

/-- The terminal that an operation is addressed to. -/
def TermOp.target (displayed executing : Fin 3) : TermOp → Fin 3
  | .write .. => executing
  | _ => displayed

/-- What an operation does to the screen of its terminal. -/
def TermOp.effects : TermOp → List ScreenOp
  | .write none _ => []
  | .write (some bytes) nbytes =>
      (((List.range nbytes.toNat).map fun i : Nat => bytes i).filter (· ≠ 0)).map .print
  | .key mode c => if c < scancodeSize then [.print (scancode mode c)] else []
  | .enter => [.print newline]
  | .backspace => [.backspace]
  | .clearScreen => [.clear]
  | .schedule _ => []
  | .display _ => []

def TermOp.displayedAfter (displayed : Fin 3) : TermOp → Fin 3
  | .display t => t
  | _ => displayed

def TermOp.executingAfter (executing : Fin 3) : TermOp → Fin 3
  | .schedule t => t
  | _ => executing

/-- What a list of operations does to the screen of terminal `t`. -/
def addressed (t : Fin 3) : Fin 3 → Fin 3 → List TermOp → List ScreenOp
  | _, _, [] => []
  | displayed, executing, op :: ops =>
      (if op.target displayed executing = t then op.effects else []) ++
        addressed t (op.displayedAfter displayed) (op.executingAfter executing) ops

section Runs

variable {b : Boot} {k : Kernel} {S : Fin 3 → Screen}

/-- Printing one character on the displayed terminal. -/
theorem Multiplexed.putc (h : Multiplexed b k S) (c : UInt8) :
    Multiplexed b (putc b c k)
      (Function.update S k.displayedTerminal ((S k.displayedTerminal).print c)) := by
  have hpage : screenPage k k.displayedTerminal = vidAddr := if_pos rfl
  obtain ⟨hs, hprints⟩ := putcAt_shows h.1 (screenPage_isScreenPage k k.displayedTerminal)
    (h.2 k.displayedTerminal) c
  have hnext := h.print hs hprints
  rwa [hpage] at hnext

theorem Multiplexed.backspace (h : Multiplexed b k S) :
    Multiplexed b (backspace b k)
      (Function.update S k.displayedTerminal (S k.displayedTerminal).backspace) := by
  have hpage : screenPage k k.displayedTerminal = vidAddr := if_pos rfl
  have hshows := h.2 k.displayedTerminal
  unfold Shows at hshows
  rw [hpage] at hshows
  obtain ⟨hs, hprints⟩ := backspace_shows h.1 hshows
  rw [← hpage] at hs hprints
  exact h.print hs hprints

theorem Multiplexed.clearScreen (h : Multiplexed b k S) :
    Multiplexed b (clearBuffer (clear b k))
      (Function.update S k.displayedTerminal Screen.clear) := by
  have hpage : screenPage k k.displayedTerminal = vidAddr := if_pos rfl
  obtain ⟨hs, hprints⟩ := clearScreen_shows h.1
  rw [← hpage] at hs hprints
  exact h.print hs hprints

/-- The scheduler changes no screen. -/
theorem Multiplexed.schedule (h : Multiplexed b k S) (t : Fin 3) :
    Multiplexed b { k with executingTerminal := t } S :=
  ⟨h.1, fun u => ⟨(h.2 u).contents, (h.2 u).row, (h.2 u).col⟩⟩

/-- One operation has its effects on the screen of the terminal it is addressed
to, and on no other. -/
theorem TermOp.apply_multiplexed (h : Multiplexed b k S) (op : TermOp) :
    Multiplexed b (op.apply b k)
      (Function.update S (op.target k.displayedTerminal k.executingTerminal)
        (op.effects.foldl ScreenOp.apply
          (S (op.target k.displayedTerminal k.executingTerminal)))) := by
  have hsame : ∀ t, Function.update S t (S t) = S := fun t => Function.update_eq_self t S
  cases op with
  | write buf nbytes =>
      simp only [TermOp.apply, TermOp.target]
      unfold terminalWrite
      by_cases hzero : nbytes = 0
      · rw [if_pos hzero]
        cases buf with
        | none => simpa [TermOp.effects, hsame] using h
        | some bytes => simpa [TermOp.effects, hzero, hsame] using h
      · rw [if_neg hzero]
        cases buf with
        | none => simpa [TermOp.effects, hsame] using h
        | some bytes =>
            simp only [TermOp.effects, List.foldl_map]
            exact h.writeLoop nbytes.toNat bytes
  | key mode c =>
      simp only [TermOp.apply, TermOp.target, TermOp.effects]
      unfold outKey
      split
      · exact h.putc (scancode mode c)
      · simpa [hsame] using h
  | enter => exact h.putc newline
  | backspace => exact h.backspace
  | clearScreen => exact h.clearScreen
  | schedule t =>
      simp only [TermOp.effects, List.foldl_nil, hsame]
      exact h.schedule t
  | display t =>
      simp only [TermOp.effects, List.foldl_nil, hsame]
      exact h.switchActiveTerminal t

/-- The terminals that are displayed and executing after an operation. -/
theorem TermOp.apply_indices (b : Boot) (k : Kernel) (op : TermOp) :
    (op.apply b k).displayedTerminal = op.displayedAfter k.displayedTerminal ∧
      (op.apply b k).executingTerminal = op.executingAfter k.executingTerminal := by
  have hprint : ∀ {k'}, ScreenOnly k k' → k'.displayedTerminal = k.displayedTerminal ∧
      k'.executingTerminal = k.executingTerminal :=
    fun h => ⟨h.displayedTerminal_eq, h.executingTerminal_eq⟩
  cases op with
  | write buf nbytes => exact hprint (terminalWrite_screenOnly b buf nbytes k)
  | key mode c =>
      simp only [TermOp.apply]
      unfold outKey
      split
      · exact hprint (putc_screenOnly b _ k)
      · exact ⟨rfl, rfl⟩
  | enter => exact hprint (putc_screenOnly b _ k)
  | backspace => exact hprint (backspace_screenOnly b k)
  | clearScreen => exact hprint (clearScreen_screenOnly b k)
  | schedule t => exact ⟨rfl, rfl⟩
  | display t =>
      obtain ⟨k', hmem, heq⟩ := switchActiveTerminal_eq b t k
      simp only [TermOp.apply]
      rw [heq]
      exact ⟨rfl, hmem.screenOnly.executingTerminal_eq⟩

theorem Multiplexed.run (h : Multiplexed b k S) (ops : List TermOp) :
    Multiplexed b (runTermOps b ops k) fun t =>
      (addressed t k.displayedTerminal k.executingTerminal ops).foldl ScreenOp.apply (S t) := by
  induction ops generalizing k S with
  | nil => exact h
  | cons op ops ih =>
      obtain ⟨hdisplayed, hexecuting⟩ := op.apply_indices b k
      have hrest := ih (op.apply_multiplexed h)
      rw [hdisplayed, hexecuting] at hrest
      unfold runTermOps at hrest ⊢
      rw [List.foldl_cons]
      have hscreens : ∀ t, (addressed t k.displayedTerminal k.executingTerminal (op :: ops)).foldl
            ScreenOp.apply (S t) =
          (addressed t (op.displayedAfter k.displayedTerminal)
            (op.executingAfter k.executingTerminal) ops).foldl ScreenOp.apply
            (Function.update S (op.target k.displayedTerminal k.executingTerminal)
              (op.effects.foldl ScreenOp.apply
                (S (op.target k.displayedTerminal k.executingTerminal))) t) := by
        intro t
        rw [addressed, List.foldl_append]
        congr 1
        by_cases ht : op.target k.displayedTerminal k.executingTerminal = t
        · rw [if_pos ht, ← ht, Function.update_self]
        · rw [if_neg ht, Function.update_of_ne (Ne.symm ht), List.foldl_nil]
      simpa only [hscreens] using hrest

end Runs

/-! ## From boot -/

/-- The cursors are in the screen, as the zeroed records of the terminals have it. -/
def CursorsInScreen (k : Kernel) : Prop :=
  ∀ t, 0 ≤ (k.terminals t).screenX ∧ (k.terminals t).screenX < 80 ∧
    0 ≤ (k.terminals t).screenY ∧ (k.terminals t).screenY < 25

theorem boot_videoTables (b : Boot) (k : Kernel) : VideoTables b (boot b k).paging := by
  rw [boot_paging]
  exact (initPage_videoTables b k.paging).terminalInitTables

/-- The state after the last assignment of `terminal_init`. -/
theorem PageShows.patchUserVideo {b : Boot} {k : Kernel} {base : Nat} {cells : Cells}
    (h : PageShows b k base cells) (hbase : IsScreenPage base) (htables : VideoTables b k.paging) :
    PageShows b (patchUserVideo k) base cells :=
  h.of_mem hbase htables htables.terminalInitTables fun _ _ => rfl

theorem boot_savePage (b : Boot) (k : Kernel) (t : Fin 3) :
    PageShows b (boot b k) (savePage t) blankCells := by
  have hblank := blankPages_pageShows (b := b) k.paging (k := terminalInitRecords
    { k with numProcessExecuting := 0, paging := initPage b k.paging }) rfl t
  have hmem := blankPages_memoryOnly b (terminalInitRecords
    { k with numProcessExecuting := 0, paging := initPage b k.paging })
  unfold boot terminalInit
  refine hblank.patchUserVideo (Or.inr ⟨t, rfl⟩) ?_
  rw [hmem.screenOnly.paging_eq]
  exact initPage_videoTables b k.paging

/-- A terminal with its cursor in the screen shows some screen. -/
theorem exists_shows (b : Boot) {k : Kernel} {t : Fin 3} (row col : Nat)
    (hrow : (k.terminals t).screenY = row) (hcol : (k.terminals t).screenX = col)
    (hrow' : row < 25) (hcol' : col < 80) :
    ∃ s, Shows b k t s ∧ s.row.val = row ∧ s.col.val = col :=
  ⟨{ cells := fun r c => ⟨readByte b k (cellPos (screenPage k t) r c),
        readByte b k (cellPos (screenPage k t) r c + 1)⟩
     row := ⟨row, hrow'⟩
     col := ⟨col, hcol'⟩ }, ⟨fun _ _ => ⟨rfl, rfl⟩, hrow, hcol⟩, rfl, rfl⟩

/-- What a terminal shows is determined. -/
theorem Shows.contents_eq {b : Boot} {k : Kernel} {t : Fin 3} {s : Screen} {cells : Cells}
    (h : Shows b k t s) (hcells : PageShows b k (screenPage k t) cells) : s.cells = cells := by
  funext row col
  obtain ⟨hchar, hattr⟩ := h.contents row col
  obtain ⟨hchar', hattr'⟩ := hcells row col
  rw [hchar'] at hchar
  rw [hattr'] at hattr
  cases hs : s.cells row col
  cases hc : cells row col
  rw [hs] at hchar hattr
  rw [hc] at hchar hattr
  exact congrArg₂ Cell.mk hchar.symm hattr.symm

/-- After boot, the screen of every terminal, in video memory or in its save page,
and its cursor are what the operations addressed to it make of a private screen,
whatever is done to the other terminals and whatever is displayed in between. The
screens start with what the video page holds and with blank save pages. -/
theorem terminals_refine_private_screens (b : Boot) (k : Kernel) (hcursors : CursorsInScreen k) :
    ∃ S : Fin 3 → Screen,
      (∀ t, Shows b (boot b k) t (S t)) ∧ (∀ t, t ≠ 0 → (S t).cells = blankCells) ∧
      ∀ ops t, Shows b (runTermOps b ops (boot b k)) t
        ((addressed t 0 0 ops).foldl ScreenOp.apply (S t)) := by
  have hstart : ∀ t, ∃ s, Shows b (boot b k) t s := by
    intro t
    obtain ⟨hx, hx', hy, hy'⟩ := hcursors t
    have hterminal := boot_terminals b k t
    obtain ⟨s, hs, -, -⟩ := exists_shows b (k := boot b k) (t := t)
      (k.terminals t).screenY.toNat (k.terminals t).screenX.toNat
      (by rw [hterminal, Int.toNat_of_nonneg hy]; rfl)
      (by rw [hterminal, Int.toNat_of_nonneg hx]; rfl) (by omega) (by omega)
    exact ⟨s, hs⟩
  choose S hS using hstart
  refine ⟨S, hS, ?_, ?_⟩
  · intro t ht
    apply (hS t).contents_eq
    unfold screenPage
    rw [boot_displayedTerminal, if_neg ht]
    exact boot_savePage b k t
  · intro ops t
    have hrun := Multiplexed.run ⟨boot_videoTables b k, hS⟩ ops
    rw [boot_displayedTerminal, boot_executingTerminal] at hrun
    exact hrun.2 t

/-- Terminal 1 prints in the background, and is then displayed. -/
theorem terminals_refine_private_screens_background :
    readByte smallBoot (runTermOps smallBoot
      [.schedule 1, .write (some fun _ => 0x41) 1, .display 1] (boot smallBoot blankKernel))
        vidAddr = 0x41 := by
  have hcursors : CursorsInScreen blankKernel := fun t => by decide +revert
  obtain ⟨S, hS, -, hrun⟩ := terminals_refine_private_screens smallBoot blankKernel hcursors
  have hterminal := boot_terminals smallBoot blankKernel 1
  have hrow : ((S 1).row.val : Int) = 0 := by
    rw [← (hS 1).row, hterminal]
    rfl
  have hcol : ((S 1).col.val : Int) = 0 := by
    rw [← (hS 1).col, hterminal]
    rfl
  have hcell : (((S 1).print 0x41).cells 0 0).char = 0x41 := by
    have hletter : ¬((0x41 : UInt8) = newline ∨ (0x41 : UInt8) = carriageReturn) := by decide
    have hplace : (0 : Fin 25) = (S 1).row ∧ (0 : Fin 80) = (S 1).col :=
      ⟨Fin.ext (by simp; omega), Fin.ext (by simp; omega)⟩
    have hroom : (S 1).col.val + 1 < 80 := by omega
    unfold Screen.print Cells.set
    rw [if_neg hletter]
    simp only [dif_pos hroom]
    rw [if_pos hplace]
  have hshown := (hrun [.schedule 1, .write (some fun _ => 0x41) 1, .display 1] 1).contents 0 0
  generalize hk : runTermOps smallBoot [.schedule 1, .write (some fun _ => 0x41) 1, .display 1]
    (boot smallBoot blankKernel) = k at hshown ⊢
  have hdisplayed : k.displayedTerminal = 1 := by
    rw [← hk]
    exact (TermOp.apply_indices smallBoot _ (.display 1)).1
  have hpage : screenPage k 1 = vidAddr := by
    unfold screenPage
    rw [hdisplayed, if_pos rfl]
  rw [hpage] at hshown
  exact hshown.1.trans hcell

end Ece391Kernel
