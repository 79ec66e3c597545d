import Ece391Kernel.Fish.BlinkList
import Mathlib.Data.List.Find

/-!
# The array as a list of characters

`HoldsBlinks` relates the array and the pointers to the list of the characters in use: the pointers
lead along their entries, these hold the structures, and every other entry has location 0, which
is all that `mp1_malloc` looks at. Each call keeps it, an addition if the first entry that looks
free is free, and what it prints is known from the list.
-/

namespace Ece391Kernel

open LinkedList X86

structure HoldsBlinks (f : Fish) (p : BlinkList) : Prop where
  chain : Chain f.links.next f.mp1ListHead p.indices
  contents : ∀ e ∈ p.entries, (f.blinkArray e.1).toBlink = e.2
  unused : ∀ i, i ∉ p.indices → (f.blinkArray i).location = 0

/-- When a structure with an accepted location is added, every structure at location 0 lies behind
a free entry. -/
def BlinkList.Safe (p : BlinkList) : BlinkCall → Prop
  | .add data => data.location.toNat < 80 * 25 →
      ∀ e ∈ p.entries, e.2.location = 0 → ∃ i < e.1, i ∉ p.indices
  | _ => True

/-- What a call prints. -/
def BlinkList.printed (p : BlinkList) (vmem : Nat → UInt8) : BlinkCall → Nat → UInt8
  | .add data =>
      if data.location.toNat < 80 * 25 ∧ p.firstFree.isSome then data.toBlink.started.drawn vmem
      else vmem
  | .sync arg =>
      match p.find ((arg >>> 16).setWidth 16), p.find ((arg &&& 0xFFFF).setWidth 16) with
      | some _, some b => Function.update vmem (cellOffset b.2.location) b.2.offChar
      | _, _ => vmem
  | .tasklet => p.entries.foldl (fun v e => if e.2.expires then e.2.tick.drawn v else v) vmem
  | _ => vmem

namespace Fish

variable (f : Fish) (i j : BlinkIndex)

theorem modify_of_ne {i j : BlinkIndex} (h : j ≠ i) (g : Mp1BlinkStruct → Mp1BlinkStruct) :
    (f.modify i g).blinkArray j = f.blinkArray j := Function.update_of_ne h _ _

theorem modify_self (g : Mp1BlinkStruct → Mp1BlinkStruct) :
    (f.modify i g).blinkArray i = g (f.blinkArray i) := Function.update_self i _ _

theorem links_modify {g : Mp1BlinkStruct → Mp1BlinkStruct}
    (hg : (g (f.blinkArray i)).next = (f.blinkArray i).next) : (f.modify i g).links = f.links := by
  have hnext : (f.modify i g).links.next = f.links.next := by
    funext j
    by_cases hj : j = i
    · subst hj
      simpa [links] using hg
    · simp [links, hj]
  exact congrArg (Links.mk f.mp1ListHead) hnext

theorem links_setLink (place : Place BlinkIndex) (q : Option BlinkIndex) :
    (f.setLink place q).links = f.links.set place q := by
  cases place with
  | head => rfl
  | next j =>
      refine congrArg (Links.mk f.mp1ListHead) (funext fun k => ?_)
      by_cases hk : k = j
      · subst hk
        simp [setLink]
      · simp [setLink, links, hk]

theorem setLink_toBlink (place : Place BlinkIndex) (q : Option BlinkIndex) :
    ((f.setLink place q).blinkArray i).toBlink = (f.blinkArray i).toBlink := by
  cases place with
  | head => rfl
  | next j =>
      by_cases hi : i = j
      · subst hi
        simp [setLink]
      · simp [setLink, hi]

theorem setLink_vmem (place : Place BlinkIndex) (q : Option BlinkIndex) :
    (f.setLink place q).vmem = f.vmem := by
  cases place <;> rfl

end Fish

/-! ## The search, and the allocator -/

section HoldsBlinks

variable {f : Fish} {p : BlinkList}

theorem HoldsBlinks.findHelper (h : HoldsBlinks f p) (arg : BitVec 32) {fuel : Nat}
    (hfuel : 80 * 25 < fuel) :
    mp1FindHelper fuel arg f = some ((p.find (arg.setWidth 16)).map Prod.fst) := by
  unfold mp1FindHelper
  rw [h.chain.search_eq _ (lt_of_le_of_lt p.length_indices_le hfuel), BlinkList.indices,
    List.find?_map, BlinkList.find]
  congr 2
  refine List.find?_congr fun e he => ?_
  rw [Function.comp_apply, ← h.contents e he]

/-- What `mp1_malloc` takes for the first free entry is it. -/
theorem HoldsBlinks.malloc (h : HoldsBlinks f p)
    (hsafe : ∀ e ∈ p.entries, e.2.location = 0 → ∃ i < e.1, i ∉ p.indices) :
    mp1Malloc f = p.firstFree := by
  have hzero : ∀ i, (f.blinkArray i).location = 0 → ∃ j ≤ i, j ∉ p.indices := by
    intro i hi
    by_cases hmem : i ∈ p.indices
    · obtain ⟨b, hb⟩ := BlinkList.exists_of_mem_indices hmem
      have hloc := h.contents _ hb
      simp only at hloc
      obtain ⟨j, hj, hfree⟩ := hsafe _ hb (by rw [← hloc]; exact hi)
      exact ⟨j, hj.le, hfree⟩
    · exact ⟨i, le_rfl, hmem⟩
  cases hfree : p.firstFree with
  | none =>
      have hall : ∀ i, i ∈ p.indices := by
        simpa [BlinkList.firstFree] using hfree
      refine List.find?_eq_none.mpr fun i _ hi => ?_
      obtain ⟨j, -, hj⟩ := hzero i (by simpa using hi)
      exact hj (hall j)
  | some i =>
      obtain ⟨hi, hbefore⟩ := BlinkList.find?_finRange.mp hfree
      refine BlinkList.find?_finRange.mpr ⟨?_, fun j hj => ?_⟩
      · simpa using h.unused i (by simpa using hi)
      · refine decide_eq_false fun hloc => ?_
        obtain ⟨k, hk, hfree'⟩ := hzero j hloc
        have hused := hbefore k (lt_of_le_of_lt hk hj)
        exact hfree' (by simpa using hused)

end HoldsBlinks

/-! ## Addition and removal -/

section Linking

variable {f : Fish} {p : BlinkList} {data : Mp1BlinkStruct} {i : BlinkIndex}

theorem location_ae (data : Mp1BlinkStruct) :
    (cmpFlags data.location (80 * 25)).ae = decide (80 * 25 ≤ data.location.toNat) := by
  rw [cmpFlags_ae]
  rfl

theorem mp1IoctlAdd_rejected (h : 80 * 25 ≤ data.location.toNat) :
    mp1IoctlAdd data f = (-1, f) := by
  unfold mp1IoctlAdd ece391Memcpy
  simp only [location_ae, decide_eq_true h]
  rfl

theorem mp1IoctlAdd_full (h : mp1Malloc f = none) : mp1IoctlAdd data f = (-1, f) := by
  unfold mp1IoctlAdd ece391Memcpy
  simp only [h]
  split_ifs <;> rfl

/-- A structure is put into an entry, linked in front of the list, and printed. -/
def Fish.linkFront (i : BlinkIndex) (b : Blink) (f : Fish) : Fish where
  blinkArray := Function.update f.blinkArray i ⟨b, f.mp1ListHead⟩
  mp1ListHead := some i
  vmem := b.drawn f.vmem

theorem Fish.linkFront_next (i : BlinkIndex) (b : Blink) (f : Fish) :
    (f.linkFront i b).links.next = Function.update f.links.next i f.mp1ListHead := by
  funext j
  by_cases hj : j = i
  · subst hj
    simp [linkFront, links]
  · simp [linkFront, links, hj]

theorem mp1IoctlAdd_linked (hloc : data.location.toNat < 80 * 25) (h : mp1Malloc f = some i) :
    mp1IoctlAdd data f = (0, f.linkFront i data.toBlink.started) := by
  unfold mp1IoctlAdd ece391Memcpy
  simp only [location_ae, decide_eq_false (not_le.mpr hloc), h]
  rw [Fish.linkFront, Blink.drawn, Blink.started_shown]
  simp [Fish.setLink, Blink.started, mp1Poke]

theorem HoldsBlinks.linkFront (h : HoldsBlinks f p) (hi : i ∉ p.indices) (b : Blink) :
    HoldsBlinks (f.linkFront i b) (p.insert i b hi) where
  chain := by
    rw [Fish.linkFront_next]
    exact h.chain.push hi
  contents := by
    intro e he
    unfold Fish.linkFront
    rcases List.mem_cons.mp he with rfl | he
    · simp
    · have hne : e.1 ≠ i := fun heq => hi (heq ▸ BlinkList.mem_indices he)
      simpa [hne] using h.contents e he
  unused := by
    intro j hj
    have hne : j ≠ i := List.ne_of_not_mem_cons hj
    simpa [Fish.linkFront, hne] using h.unused j (List.not_mem_of_not_mem_cons hj)

theorem HoldsBlinks.add (h : HoldsBlinks f p) (hsafe : p.Safe (.add data)) :
    HoldsBlinks (mp1IoctlAdd data f).2 (p.step (.add data)) ∧
      (mp1IoctlAdd data f).2.vmem = p.printed f.vmem (.add data) := by
  unfold BlinkList.step BlinkList.printed
  simp only
  by_cases hloc : data.location.toNat < 80 * 25
  · have hmalloc := h.malloc (hsafe hloc)
    rw [if_pos hloc]
    cases hfree : p.firstFree with
    | none =>
        rw [mp1IoctlAdd_full (hmalloc.trans hfree), BlinkList.add_eq_self hfree]
        exact ⟨h, (if_neg fun hsome => by simp at hsome).symm⟩
    | some i =>
        have hi := BlinkList.firstFree_not_mem hfree
        rw [mp1IoctlAdd_linked hloc (hmalloc.trans hfree), BlinkList.add_eq_insert hfree]
        exact ⟨h.linkFront hi _, (if_pos ⟨hloc, rfl⟩).symm⟩
  · rw [if_neg hloc, mp1IoctlAdd_rejected (not_lt.mp hloc)]
    exact ⟨h, (if_neg fun hboth => hloc hboth.1).symm⟩

/-- An entry that the pointers pass over is given up. -/
theorem HoldsBlinks.free (h : HoldsBlinks f p) {location : BitVec 16} {e : BlinkIndex × Blink}
    (hfind : p.find location = some e) {g : Fish}
    (hchain : Chain g.links.next g.mp1ListHead (p.indices.erase e.1))
    (hsame : ∀ j, (g.blinkArray j).toBlink = (f.blinkArray j).toBlink) :
    HoldsBlinks (mp1Free e.1 g) (p.remove location) := by
  have hne : ∀ j ∈ p.indices.erase e.1, j ≠ e.1 := fun j hj => (p.nodup.mem_erase_iff.mp hj).1
  have hindices := BlinkList.indices_remove hfind
  refine ⟨?_, fun c hc => ?_, fun j hj => ?_⟩
  · rw [hindices]
    refine hchain.congr fun j hj => ?_
    exact congrArg Mp1BlinkStruct.next (g.modify_of_ne (hne j hj) _)
  · have hc' : c.1 ∈ p.indices.erase e.1 := hindices ▸ BlinkList.mem_indices hc
    rw [mp1Free, g.modify_of_ne (hne _ hc'), hsame]
    exact h.contents c (BlinkList.mem_of_mem_remove hc)
  · by_cases heq : j = e.1
    · rw [heq, mp1Free, g.modify_self]
      rfl
    · rw [mp1Free, g.modify_of_ne heq, hsame]
      rw [hindices] at hj
      exact h.unused j fun hmem => hj ((List.mem_erase_of_ne heq).mpr hmem)

theorem HoldsBlinks.remove (h : HoldsBlinks f p) (arg : BitVec 32) {fuel : Nat}
    (hfuel : 80 * 25 < fuel) :
    ∃ f', mp1IoctlRemove fuel arg f =
        some (if (p.find (arg.setWidth 16)).isSome then 0 else -1, f') ∧
      HoldsBlinks f' (p.remove (arg.setWidth 16)) ∧ f'.vmem = f.vmem := by
  unfold mp1IoctlRemove
  rw [h.findHelper arg hfuel]
  cases hfind : p.find (arg.setWidth 16) with
  | none =>
      rw [BlinkList.remove_eq_self hfind]
      exact ⟨f, rfl, h, rfl⟩
  | some e =>
      have hmem := BlinkList.mem_indices (BlinkList.find_mem hfind).1
      obtain ⟨place, hplace, -, hchain⟩ := Links.exists_findPlace (s := f.links) (a := .head)
        h.chain hmem (fun m heq => by cases heq) (le_trans p.length_indices_le hfuel.le)
      have hlinks : f.links.set place (f.links.next e.1) =
          (f.setLink place (f.blinkArray e.1).next).links :=
        (f.links_setLink place (f.blinkArray e.1).next).symm
      rw [hlinks] at hchain
      exact ⟨mp1Free e.1 (f.setLink place (f.blinkArray e.1).next), by simp [hplace],
        h.free hfind hchain fun j => f.setLink_toBlink j place _, f.setLink_vmem place _⟩

end Linking

/-! ## Synchronisation and ticks -/

section Changes

variable {f : Fish} {p : BlinkList}

/-- Other structures in the same entries, under the same pointers. -/
theorem HoldsBlinks.map (h : HoldsBlinks f p) {f' : Fish} (hlinks : f'.links = f.links)
    {g : BlinkIndex → Blink → Blink}
    (hg : ∀ i b, (i, b) ∈ p.entries → (f'.blinkArray i).toBlink = g i b)
    (hunused : ∀ i, i ∉ p.indices → f'.blinkArray i = f.blinkArray i) :
    HoldsBlinks f' (p.map g) where
  chain := by
    have hhead : f'.mp1ListHead = f.mp1ListHead := congrArg Links.head hlinks
    rw [p.indices_map, hlinks, hhead]
    exact h.chain
  contents := by
    intro e he
    obtain ⟨b, hb, heq⟩ := BlinkList.mem_map.mp he
    rw [hg e.1 b hb, heq]
  unused := by
    intro i hi
    rw [p.indices_map] at hi
    rw [hunused i hi]
    exact h.unused i hi

/-- The condition of the conditional move never holds. -/
theorem syncChar_eq (s : Mp1BlinkStruct) : syncChar s = s.offChar := by
  unfold syncChar
  rw [testFlags_l]
  simp

theorem syncCopy_toBlink (f : Fish) (i j : BlinkIndex) :
    ((syncCopy i j f).blinkArray j).toBlink =
      (f.blinkArray i).toBlink.synced (f.blinkArray j).toBlink := by
  rw [syncCopy, f.modify_self]
  rfl

theorem syncCopy_of_ne (f : Fish) (i : BlinkIndex) {j k : BlinkIndex} (h : k ≠ j) :
    (syncCopy i j f).blinkArray k = f.blinkArray k := f.modify_of_ne h _

theorem syncCopy_links (f : Fish) (i j : BlinkIndex) : (syncCopy i j f).links = f.links := by
  unfold syncCopy
  exact f.links_modify j rfl

theorem HoldsBlinks.sync (h : HoldsBlinks f p) (arg : BitVec 32) {fuel : Nat}
    (hfuel : 80 * 25 < fuel) :
    ∃ f', mp1IoctlSync fuel arg f =
        some (if (p.find ((arg >>> 16).setWidth 16)).isSome ∧
          (p.find ((arg &&& 0xFFFF).setWidth 16)).isSome then 0 else -1, f') ∧
      HoldsBlinks f' (p.step (.sync arg)) ∧ f'.vmem = p.printed f.vmem (.sync arg) := by
  unfold mp1IoctlSync BlinkList.step BlinkList.sync BlinkList.printed
  simp only
  rw [h.findHelper (arg >>> 16) hfuel, h.findHelper (arg &&& 0xFFFF) hfuel]
  cases hsource : p.find ((arg >>> 16).setWidth 16) with
  | none => exact ⟨f, rfl, h, rfl⟩
  | some a =>
      cases htarget : p.find ((arg &&& 0xFFFF).setWidth 16) with
      | none => exact ⟨f, rfl, h, rfl⟩
      | some b =>
          have ha := h.contents a (BlinkList.find_mem hsource).1
          have hb := h.contents b (BlinkList.find_mem htarget).1
          have hcopy := syncCopy_toBlink f a.1 b.1
          rw [ha, hb] at hcopy
          have hlocation := congrArg Blink.location hcopy
          have hoff := congrArg Blink.offChar hcopy
          refine ⟨mp1Poke (cellOffset b.2.location) b.2.offChar (syncCopy a.1 b.1 f), ?_,
            h.map ?_ (fun i c hc => ?_) (fun i hi => ?_), rfl⟩
          · simp only [Option.map_some, Option.bind_eq_bind, Option.bind_some, syncChar_eq,
              hlocation, hoff]
            rfl
          · exact syncCopy_links f a.1 b.1
          · by_cases hi : i = b.1
            · rw [if_pos hi]
              subst hi
              rw [BlinkList.eq_of_mem hc (BlinkList.find_mem htarget).1]
              exact hcopy
            · rw [if_neg hi]
              exact (congrArg _ (syncCopy_of_ne f a.1 hi)).trans (h.contents _ hc)
          · have hne : i ≠ b.1 := fun heq =>
              hi (heq ▸ BlinkList.mem_indices (BlinkList.find_mem htarget).1)
            exact syncCopy_of_ne f a.1 hne

/-! ### One structure on a tick -/

theorem status_z (b : Blink) : (testFlags b.status 1).z = !b.isOn := by
  have hand : b.status &&& 1 = BitVec.setWidth 16 (BitVec.ofBool b.isOn) :=
    BitVec.and_one_eq_setWidth_ofBool_getLsbD
  rw [testFlags_z, hand]
  cases b.isOn <;> rfl

theorem expires_eq (b : Blink) : b.expires = !(cmpFlags (b.countdown - 1) 0).g := by
  rw [cmpFlags_g]
  rfl

/-- The structure counts down, and prints its other character when it has come to zero. -/
theorem taskletBody_eq (f : Fish) (i : BlinkIndex) :
    taskletBody i f =
      { blinkArray := Function.update f.blinkArray i
          { f.blinkArray i with toBlink := (f.blinkArray i).toBlink.tick }
        mp1ListHead := f.mp1ListHead
        vmem := if (f.blinkArray i).toBlink.expires then (f.blinkArray i).toBlink.tick.drawn f.vmem
          else f.vmem } := by
  have hexpires := expires_eq (f.blinkArray i).toBlink
  have hstatus := status_z (f.blinkArray i).toBlink
  unfold taskletBody
  simp only [Fish.modify_self]
  cases hg : (cmpFlags ((f.blinkArray i).countdown - 1) 0).g with
  | true =>
      rw [hg] at hexpires
      simp [hexpires, Blink.tick, Fish.modify]
  | false =>
      rw [hg] at hexpires
      rw [hstatus, hexpires, Blink.drawn, Blink.tick_shown_of_expires hexpires,
        Blink.tick_location, Blink.tick_of_expires hexpires]
      cases (f.blinkArray i).toBlink.isOn <;> simp [endBlink, mp1Poke, Fish.modify]

theorem taskletBody_links (f : Fish) (i : BlinkIndex) : (taskletBody i f).links = f.links := by
  have hbody := f.links_modify i (g := fun s => { s with toBlink := s.toBlink.tick }) rfl
  rw [taskletBody_eq]
  exact hbody

theorem taskletBody_next (i : BlinkIndex) (f : Fish) :
    (fun j => ((taskletBody i f).blinkArray j).next) = fun j => (f.blinkArray j).next :=
  congrArg Links.next (taskletBody_links f i)

/-! ### All structures on a tick -/

/-- The structures at the indices have ticked, one after the other. -/
structure Ticked (l : List BlinkIndex) (f f' : Fish) : Prop where
  links : f'.links = f.links
  ticked : ∀ i ∈ l, (f'.blinkArray i).toBlink = (f.blinkArray i).toBlink.tick
  others : ∀ i, i ∉ l → f'.blinkArray i = f.blinkArray i
  vmem : f'.vmem = l.foldl (fun v i => if (f.blinkArray i).toBlink.expires then
    (f.blinkArray i).toBlink.tick.drawn v else v) f.vmem

theorem ticked_foldl {l : List BlinkIndex} (hl : l.Nodup) (f : Fish) :
    Ticked l f (l.foldl (fun f i => taskletBody i f) f) := by
  induction l generalizing f with
  | nil => exact ⟨rfl, fun i hi => absurd hi List.not_mem_nil, fun _ _ => rfl, rfl⟩
  | cons j l ih =>
      obtain ⟨hj, hl⟩ := List.nodup_cons.mp hl
      have hrest := ih hl (taskletBody j f)
      have hsame : ∀ i, i ≠ j → (taskletBody j f).blinkArray i = f.blinkArray i := by
        intro i hi
        rw [taskletBody_eq]
        exact Function.update_of_ne hi _ _
      refine ⟨hrest.links.trans (taskletBody_links f j), fun i hi => ?_, fun i hi => ?_, ?_⟩
      · rcases List.mem_cons.mp hi with rfl | hi
        · rw [List.foldl_cons, hrest.others i hj, taskletBody_eq]
          simp
        · have hne : i ≠ j := fun heq => hj (heq ▸ hi)
          rw [List.foldl_cons, hrest.ticked i hi, hsame i hne]
      · have hne : i ≠ j := List.ne_of_not_mem_cons hi
        rw [List.foldl_cons, hrest.others i (List.not_mem_of_not_mem_cons hi), hsame i hne]
      · rw [List.foldl_cons, hrest.vmem, List.foldl_cons]
        have hfirst : (taskletBody j f).vmem = if (f.blinkArray j).toBlink.expires then
            (f.blinkArray j).toBlink.tick.drawn f.vmem else f.vmem := by
          rw [taskletBody_eq]
        rw [hfirst]
        refine List.foldl_ext _ _ _ fun v i hi => ?_
        rw [hsame i fun heq => hj (heq ▸ hi)]

theorem HoldsBlinks.tasklet (h : HoldsBlinks f p) {fuel : Nat} (hfuel : 80 * 25 < fuel) :
    ∃ f', mp1RtcTasklet fuel f = some f' ∧
      HoldsBlinks f' (p.step .tasklet) ∧ f'.vmem = p.printed f.vmem .tasklet := by
  have hticked : Ticked p.indices f (p.indices.foldl (fun f i => taskletBody i f) f) :=
    ticked_foldl p.nodup f
  have htick : HoldsBlinks (p.indices.foldl (fun f i => taskletBody i f) f) p.tick := by
    refine h.map hticked.links (fun i b hb => ?_) hticked.others
    rw [hticked.ticked i (BlinkList.mem_indices hb), h.contents _ hb]
  refine ⟨_, ?_, htick, ?_⟩
  · exact Chain.forEach_eq taskletBody_next h.chain (lt_of_le_of_lt p.length_indices_le hfuel)
  · rw [hticked.vmem, BlinkList.indices, List.foldl_map]
    refine List.foldl_ext _ _ _ fun v e he => ?_
    rw [h.contents e he]

end Changes

/-! ## Calls -/

section Calls

variable {f f' f'' : Fish} {p : BlinkList} {c : BlinkCall}

/-- `mp1_ioctl_find` copies the newest structure at the location of its caller's. -/
theorem HoldsBlinks.find (h : HoldsBlinks f p) (data : Mp1BlinkStruct) {fuel : Nat}
    (hfuel : 80 * 25 < fuel) :
    mp1IoctlFind fuel data f = some (match p.find data.location with
      | none => (-1, data)
      | some e => (0, f.blinkArray e.1)) := by
  have hlocation : (data.location.setWidth 32).setWidth 16 = data.location := by
    simp [BitVec.setWidth_setWidth_of_le]
  unfold mp1IoctlFind ece391Memcpy
  simp only [h.findHelper _ hfuel, hlocation]
  cases p.find data.location <;> rfl

/-- A safe call returns, and does to the array what it should do to the list. -/
theorem HoldsBlinks.run (h : HoldsBlinks f p) (hsafe : p.Safe c) {fuel : Nat}
    (hfuel : 80 * 25 < fuel) :
    ∃ f', c.run fuel f = some f' ∧ HoldsBlinks f' (p.step c) ∧
      f'.vmem = p.printed f.vmem c := by
  cases c with
  | add data => exact ⟨_, rfl, h.add hsafe⟩
  | remove arg =>
      obtain ⟨f', hrun, hholds, hvmem⟩ := h.remove arg hfuel
      exact ⟨f', congrArg (Option.map Prod.snd) hrun, hholds, hvmem⟩
  | find data => exact ⟨f, congrArg (Option.map fun _ => f) (h.find data hfuel), h, rfl⟩
  | sync arg =>
      obtain ⟨f', hrun, hholds, hvmem⟩ := h.sync arg hfuel
      exact ⟨f', congrArg (Option.map Prod.snd) hrun, hholds, hvmem⟩
  | tasklet => exact h.tasklet hfuel

theorem findHelper_mono {arg : BitVec 32} {found : Option BlinkIndex} {fuel fuel' : Nat}
    (h : mp1FindHelper fuel arg f = some found) (hle : fuel ≤ fuel') :
    mp1FindHelper fuel' arg f = some found := search_mono h fuel' hle

theorem mp1IoctlRemove_mono {arg : BitVec 32} {r : Int × Fish} {fuel fuel' : Nat}
    (h : mp1IoctlRemove fuel arg f = some r) (hle : fuel ≤ fuel') :
    mp1IoctlRemove fuel' arg f = some r := by
  obtain ⟨found, hfound, hrest⟩ := Option.bind_eq_some_iff.mp h
  unfold mp1IoctlRemove
  rw [findHelper_mono hfound hle]
  cases found with
  | none => exact hrest
  | some i =>
      obtain ⟨place, hplace, hrest⟩ := Option.bind_eq_some_iff.mp hrest
      simp only [Option.bind_eq_bind, Option.bind_some, Links.findPlace_mono hplace fuel' hle]
      exact hrest

theorem mp1IoctlSync_mono {arg : BitVec 32} {r : Int × Fish} {fuel fuel' : Nat}
    (h : mp1IoctlSync fuel arg f = some r) (hle : fuel ≤ fuel') :
    mp1IoctlSync fuel' arg f = some r := by
  obtain ⟨source, hsource, hrest⟩ := Option.bind_eq_some_iff.mp h
  unfold mp1IoctlSync
  rw [findHelper_mono hsource hle]
  cases source with
  | none => exact hrest
  | some i =>
      obtain ⟨target, htarget, hrest⟩ := Option.bind_eq_some_iff.mp hrest
      simp only [Option.bind_eq_bind, Option.bind_some, findHelper_mono htarget hle]
      exact hrest

/-- More fuel does not change what a call leaves. -/
theorem BlinkCall.run_mono {fuel : Nat} (h : c.run fuel f = some f') :
    ∀ fuel' ≥ fuel, c.run fuel' f = some f' := by
  intro fuel' hle
  cases c with
  | add data => exact h
  | remove arg =>
      obtain ⟨r, hrun, rfl⟩ := Option.map_eq_some_iff.mp h
      exact Option.map_eq_some_iff.mpr ⟨r, mp1IoctlRemove_mono hrun hle, rfl⟩
  | find data =>
      obtain ⟨r, hrun, rfl⟩ := Option.map_eq_some_iff.mp h
      obtain ⟨found, hfound, hrest⟩ := Option.bind_eq_some_iff.mp hrun
      simp only [BlinkCall.run, mp1IoctlFind, ece391Memcpy, findHelper_mono hfound hle]
      exact congrArg (Option.map fun _ => f) hrest
  | sync arg =>
      obtain ⟨r, hrun, rfl⟩ := Option.map_eq_some_iff.mp h
      exact Option.map_eq_some_iff.mpr ⟨r, mp1IoctlSync_mono hrun hle, rfl⟩
  | tasklet => exact forEach_mono h fuel' hle

theorem Calls.unique (h : Calls f c f') (h' : Calls f c f'') : f' = f'' := by
  obtain ⟨fuel, hrun⟩ := h
  obtain ⟨fuel', hrun'⟩ := h'
  have hmore := BlinkCall.run_mono hrun (max fuel fuel') (le_max_left _ _)
  rw [BlinkCall.run_mono hrun' (max fuel fuel') (le_max_right _ _)] at hmore
  exact (Option.some.inj hmore).symm

/-- A synchronisation that returns has succeeded if and only if both structures are there. -/
theorem HoldsBlinks.sync_code (h : HoldsBlinks f p) {arg : BitVec 32} {fuel : Nat} {r : Int}
    (hrun : mp1IoctlSync fuel arg f = some (r, f')) :
    r = if (p.find ((arg >>> 16).setWidth 16)).isSome ∧
      (p.find ((arg &&& 0xFFFF).setWidth 16)).isSome then 0 else -1 := by
  have hfuel : 80 * 25 < max fuel (80 * 25 + 1) := lt_max_of_lt_right (Nat.lt_succ_self _)
  obtain ⟨g, hsync, -⟩ := h.sync arg hfuel
  rw [mp1IoctlSync_mono hrun (le_max_left _ _)] at hsync
  exact congrArg Prod.fst (Option.some.inj hsync)

theorem HoldsBlinks.exists_calls (h : HoldsBlinks f p) (hsafe : p.Safe c) :
    ∃ f', Calls f c f' := by
  obtain ⟨f', hrun, -⟩ := h.run hsafe (Nat.lt_succ_self (80 * 25))
  exact ⟨f', _, hrun⟩

theorem HoldsBlinks.calls (h : HoldsBlinks f p) (hsafe : p.Safe c) (hcall : Calls f c f') :
    HoldsBlinks f' (p.step c) ∧ f'.vmem = p.printed f.vmem c := by
  obtain ⟨g, hrun, hholds⟩ := h.run hsafe (Nat.lt_succ_self (80 * 25))
  rwa [hcall.unique ⟨_, hrun⟩]

end Calls

end Ece391Kernel
