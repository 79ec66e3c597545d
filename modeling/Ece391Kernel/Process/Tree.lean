import Ece391Kernel.Process.InPlace
import Ece391Kernel.Process.Load
import Ece391Kernel.Library.LinkedStack
import Ece391Kernel.Library.Run

/-!
# The process tree

Each terminal has a stack of processes: the one that runs is on top, and below
each process is the one that has started it. The kernel keeps the stacks as
linked lists through the process control blocks, from `active_pcb` down, and the
slots that are on a stack marked in `processes`. `Represents` is the relation
between the two, and every call of a process keeps it, on whatever terminal.
-/

namespace Ece391Kernel

open TransitionSystem LinkedStack

/-- A stack of slots for each terminal. -/
abbrev ProcessStacks := Stacks (Fin 3) (Fin 6)

/-- The link of the process control block at an address. -/
def Kernel.link (k : Kernel) (addr : Nat) : Nat := (k.pcbs addr).parentPcb

/-- The address of the process control block in a slot. -/
def slotAddr (n : Fin 6) : Nat := pcbAddr n

/-- The kernel keeps the stacks. -/
structure Represents (k : Kernel) (s : ProcessStacks) : Prop where
  linked : ∀ t, (k.terminals t).numProcessExecutingOnTerminal ≠ 0 →
    Linked slotAddr 0 k.link (k.terminals t).activePcb (s.on t)
  length : ∀ t, (k.terminals t).numProcessExecutingOnTerminal = (s.on t).length
  processNum : ∀ t, ∀ n ∈ s.on t, (k.pcbs (slotAddr n)).processNum = n
  used : ∀ n : Fin 6, s.Owned n → k.processes n = 1
  unused : ∀ n : Fin 6, ¬s.Owned n → k.processes n = 0

theorem slotAddr_injective : Function.Injective slotAddr := by
  intro n m h
  unfold slotAddr pcbAddr at h
  simp only [eightMB, eightKB] at h
  exact Fin.ext (by omega)

theorem slotAddr_ne_zero (n : Fin 6) : slotAddr n ≠ 0 := by
  unfold slotAddr pcbAddr
  simp only [eightMB, eightKB]
  omega

/-- The slot that the search finds is free. -/
theorem freeSlot_some {k : Kernel} {n : Nat} (h : freeSlot k = some n) :
    ∃ m : Fin 6, n = m ∧ k.processes m = 0 := by
  unfold freeSlot at h
  have hmem := List.mem_of_find?_eq_some h
  have hfree := List.find?_some h
  rw [List.mem_range] at hmem
  exact ⟨⟨n, hmem⟩, rfl, by simpa using hfree⟩

/-- The search finds a slot when there is a free one. -/
theorem freeSlot_isSome {k : Kernel} {m : Fin 6} (h : k.processes m = 0) :
    ∃ n, freeSlot k = some n := by
  cases hfree : freeSlot k with
  | some n => exact ⟨n, rfl⟩
  | none =>
      unfold freeSlot at hfree
      rw [List.find?_range_eq_none] at hfree
      have hm := hfree m m.isLt
      simp [h] at hm

namespace Represents

variable {k k' : Kernel} {s : ProcessStacks}

/-- The process on top of a stack. -/
theorem top (h : Represents k s) {t : Fin 3} {n : Fin 6} {l : List (Fin 6)}
    (htop : s.on t = n :: l) :
    (k.terminals t).activePcb = slotAddr n ∧ (k.pcbs (slotAddr n)).processNum = n ∧
      Linked slotAddr 0 k.link (k.link (slotAddr n)) l := by
  have hnum := h.length t
  rw [htop, List.length_cons] at hnum
  have hlinked := h.linked t (by omega)
  rw [htop] at hlinked
  exact ⟨hlinked.top.1, h.processNum t n (by rw [htop]; exact List.mem_cons_self), hlinked.rest⟩

/-- The stack of a started terminal is not empty. -/
theorem exists_top (h : Represents k s) {t : Fin 3}
    (hstarted : 0 < (k.terminals t).numProcessExecutingOnTerminal) : ∃ n l, s.on t = n :: l := by
  have hnum := h.length t
  cases hon : s.on t with
  | nil =>
      rw [hon, List.length_nil] at hnum
      omega
  | cons n l => exact ⟨n, l, rfl⟩

/-- A change of no link, no slot and no terminal. -/
theorem of_same (h : Represents k s) (hprocesses : k'.processes = k.processes)
    (hpcbs : ∀ addr, (k'.pcbs addr).processNum = (k.pcbs addr).processNum ∧
      (k'.pcbs addr).parentPcb = (k.pcbs addr).parentPcb)
    (hterminals : ∀ t, (k'.terminals t).numProcessExecutingOnTerminal =
        (k.terminals t).numProcessExecutingOnTerminal ∧
      (k'.terminals t).activePcb = (k.terminals t).activePcb) : Represents k' s where
  linked := by
    intro t hnum
    have hlink : k'.link = k.link := funext fun addr => (hpcbs addr).2
    rw [(hterminals t).1] at hnum
    rw [(hterminals t).2, hlink]
    exact h.linked t hnum
  length := fun t => (hterminals t).1.trans (h.length t)
  processNum := fun t n hn => (hpcbs _).1.trans (h.processNum t n hn)
  used := by rw [hprocesses]; exact h.used
  unused := by rw [hprocesses]; exact h.unused

theorem fail (h : Represents k s) (hfailed : Failed k k') : Represents k' s :=
  h.of_same hfailed.processes (fun _ => by rw [hfailed.pcbs]; exact ⟨rfl, rfl⟩) fun t => by
    rw [hfailed.terminals]
    exact ⟨rfl, rfl⟩

/-- Starting a process pushes its slot on the stack of the executing terminal. -/
theorem launch (h : Represents k s) {n : Fin 6} {esp ebp : Nat} (hfree : k.processes n = 0)
    (hlaunch : Launch n esp ebp k k') :
    ∃ hn : ¬s.Owned n, Represents k' (s.push k.executingTerminal n hn) := by
  have hn : ¬s.Owned n := by
    intro howned
    rw [h.used n howned] at hfree
    exact absurd hfree (by decide)
  refine ⟨hn, ?_⟩
  -- the new control block is not on a stack yet
  have hother : ∀ t, ∀ m ∈ s.on t, k'.pcbs (slotAddr m) = k.pcbs (slotAddr m) := by
    intro t m hm
    refine hlaunch.pcbs_other _ fun heq => hn ⟨t, ?_⟩
    rwa [← slotAddr_injective heq]
  have hlinked : ∀ t a, Linked slotAddr 0 k.link a (s.on t) →
      Linked slotAddr 0 k'.link a (s.on t) := by
    intro t a hl
    refine hl.congr fun m hm => ?_
    unfold Kernel.link
    rw [hother t m hm]
  exact
    { linked := by
        intro t hnum
        rw [hlaunch.terminals] at hnum ⊢
        by_cases ht : t = k.executingTerminal
        · rw [ht, Function.update_self, Stacks.push_on_self]
          refine Linked.cons (slotAddr_ne_zero n) ?_
          have hparent : k'.link (slotAddr n) = _ := hlaunch.parentPcb
          have hlen : k.current.numProcessExecutingOnTerminal = _ := h.length k.executingTerminal
          rw [hparent]
          by_cases hfirst : k.current.numProcessExecutingOnTerminal = 0
          · have hnil : s.on k.executingTerminal = [] := by
              rw [hfirst] at hlen
              exact List.eq_nil_of_length_eq_zero (by omega)
            rw [if_pos (by omega), hnil]
            exact Linked.nil
          · rw [if_neg (by omega)]
            exact hlinked _ _ (h.linked _ hfirst)
        · rw [Function.update_of_ne ht] at hnum ⊢
          rw [Stacks.push_on_ne s n hn ht]
          exact hlinked _ _ (h.linked t hnum)
      length := by
        intro t
        rw [hlaunch.terminals]
        by_cases ht : t = k.executingTerminal
        · have hlen : k.current.numProcessExecutingOnTerminal = _ := h.length k.executingTerminal
          rw [ht, Function.update_self, Stacks.push_on_self, List.length_cons]
          simp only
          omega
        · rw [Function.update_of_ne ht, Stacks.push_on_ne s n hn ht]
          exact h.length t
      processNum := by
        intro t m hm
        by_cases hmn : m = n
        · rw [hmn]
          exact hlaunch.processNum
        · have hm' : ∃ u, m ∈ s.on u := by
            rcases (s.push_owned k.executingTerminal n hn m).mp ⟨t, hm⟩ with heq | hm'
            · exact absurd heq hmn
            · exact hm'
          obtain ⟨u, hu⟩ := hm'
          rw [hother u m hu]
          exact h.processNum u m hu
      used := by
        intro m hm
        rw [hlaunch.processes]
        by_cases hmn : m = n
        · rw [hmn, Function.update_self]
        · have hne : (m : Nat) ≠ n := fun heq => hmn (Fin.ext heq)
          rw [Function.update_of_ne hne]
          rcases (s.push_owned k.executingTerminal n hn m).mp hm with heq | hm
          · exact absurd heq hmn
          · exact h.used m hm
      unused := by
        intro m hm
        rw [s.push_owned k.executingTerminal n hn m, not_or] at hm
        have hne : (m : Nat) ≠ n := fun heq => hm.1 (Fin.ext heq)
        rw [hlaunch.processes, Function.update_of_ne hne]
        exact h.unused m hm.2 }

/-- Freeing the slot of the top process takes it off its stack, once the process
below is the active one. -/
theorem pop (h : Represents k s) {e : Fin 3} {n : Fin 6} {l : List (Fin 6)}
    (htop : s.on e = n :: l) (hprocesses : k'.processes = Function.update k.processes n 0)
    (hpcbs : ∀ addr, (k'.pcbs addr).processNum = (k.pcbs addr).processNum ∧
      (k'.pcbs addr).parentPcb = (k.pcbs addr).parentPcb)
    (hterminals : ∀ t, t ≠ e → k'.terminals t = k.terminals t)
    (hnum : (k'.terminals e).numProcessExecutingOnTerminal =
      (k.terminals e).numProcessExecutingOnTerminal - 1)
    (hactive : l ≠ [] → (k'.terminals e).activePcb = k.link (slotAddr n)) :
    Represents k' (s.pop e) := by
  have hlink : k'.link = k.link := funext fun addr => (hpcbs addr).2
  have hlen := h.length e
  rw [htop, List.length_cons] at hlen
  exact
    { linked := by
        intro t hstarted
        rw [hlink]
        by_cases ht : t = e
        · rw [ht] at hstarted ⊢
          have hne : l ≠ [] := by
            rintro rfl
            rw [hnum, hlen] at hstarted
            exact hstarted (by simp)
          rw [Stacks.pop_on_self, htop, List.tail_cons, hactive hne]
          exact (h.top htop).2.2
        · rw [hterminals t ht] at hstarted ⊢
          rw [Stacks.pop_on_ne s ht]
          exact h.linked t hstarted
      length := by
        intro t
        by_cases ht : t = e
        · rw [ht, hnum, Stacks.pop_on_self, htop, List.tail_cons]
          omega
        · rw [hterminals t ht, Stacks.pop_on_ne s ht]
          exact h.length t
      processNum := by
        intro t m hm
        rw [(hpcbs _).1]
        obtain ⟨-, u, hu⟩ := (s.pop_owned htop m).mp ⟨t, hm⟩
        exact h.processNum u m hu
      used := by
        intro m hm
        obtain ⟨hne, howned⟩ := (s.pop_owned htop m).mp hm
        have hne' : (m : Nat) ≠ n := fun heq => hne (Fin.ext heq)
        rw [hprocesses, Function.update_of_ne hne']
        exact h.used m howned
      unused := by
        intro m hm
        rw [hprocesses]
        by_cases hmn : m = n
        · rw [hmn, Function.update_self]
        · have hne' : (m : Nat) ≠ n := fun heq => hmn (Fin.ext heq)
          rw [Function.update_of_ne hne']
          refine h.unused m fun howned => hm ?_
          exact (s.pop_owned htop m).mpr ⟨hmn, howned⟩ }

end Represents

/-! ## One call -/

/-- What a call on terminal `t` does to the stacks: nothing, when it fails; start a
process; end one that has a parent; or replace the last process of the terminal
by a shell. -/
inductive StackStep (t : Fin 3) : ProcessStacks → ProcessStacks → Prop
  | fail (s : ProcessStacks) : StackStep t s s
  | start (s : ProcessStacks) (n : Fin 6) (h : ¬s.Owned n) : StackStep t s (s.push t n h)
  | finish (s : ProcessStacks) (n m : Fin 6) (l : List (Fin 6)) (htop : s.on t = n :: m :: l) :
      StackStep t s (s.pop t)
  | restart (s : ProcessStacks) (n m : Fin 6) (htop : s.on t = [n]) (h : ¬(s.pop t).Owned m) :
      StackStep t s ((s.pop t).push t m h)

/-- A call changes the stack of its own terminal only. -/
theorem StackStep.other {t u : Fin 3} {s s' : ProcessStacks} (h : StackStep t s s') (hu : u ≠ t) :
    s'.on u = s.on u := by
  cases h with
  | fail => rfl
  | start n h => exact Stacks.push_on_ne s n h hu
  | finish n m l htop => exact Stacks.pop_on_ne s hu
  | restart n m htop h => exact (Stacks.push_on_ne _ m h hu).trans (Stacks.pop_on_ne s hu)

namespace Represents

variable {k k' k₁ : Kernel} {s : ProcessStacks}

/-- The process to which a halt returns is on top of the stack that is left. -/
theorem resume (h : Represents k s) {n : Fin 6} {l : List (Fin 6)}
    (htop : s.on k.executingTerminal = n :: l) (hreleased : Released k k₁) {pcb : Pcb}
    (hpcb : pcb = k₁.pcbs k.current.activePcb) :
    Represents (resumeParent pcb k₁) (s.pop k.executingTerminal) := by
  obtain ⟨hactive, hnum, -⟩ := h.top htop
  have hcurrent : k.current.activePcb = slotAddr n := hactive
  have hexecuting := hreleased.executingTerminal
  refine h.pop htop ?_ ?_ ?_ ?_ ?_
  · rw [resumeParent_processes, hreleased.processes]
    unfold Kernel.activePcb
    rw [hcurrent, hnum]
  · intro addr
    obtain ⟨hnum', hparent', -⟩ := hreleased.pcb addr
    rw [resumeParent_pcbs]
    exact ⟨hnum', hparent'⟩
  · intro t ht
    rw [resumeParent_terminals, hexecuting, Function.update_of_ne ht, hreleased.terminals,
      Function.update_of_ne ht]
  · rw [resumeParent_terminals, hexecuting, Function.update_self, hreleased.terminals,
      Function.update_self]
    rfl
  · intro _
    rw [resumeParent_terminals, hexecuting, Function.update_self, hpcb, hcurrent]
    exact (hreleased.pcb (slotAddr n)).2.1

/-- The release of the last process of a terminal. -/
theorem release (h : Represents k s) {n : Fin 6} (htop : s.on k.executingTerminal = [n])
    (hreleased : Released k k₁) : Represents k₁ (s.pop k.executingTerminal) := by
  obtain ⟨hactive, hnum, -⟩ := h.top htop
  have hcurrent : k.current.activePcb = slotAddr n := hactive
  refine h.pop htop ?_ ?_ ?_ ?_ ?_
  · rw [hreleased.processes]
    unfold Kernel.activePcb
    rw [hcurrent, hnum]
  · intro addr
    obtain ⟨hnum', hparent', -⟩ := hreleased.pcb addr
    exact ⟨hnum', hparent'⟩
  · intro t ht
    rw [hreleased.terminals, Function.update_of_ne ht]
  · rw [hreleased.terminals, Function.update_self]
    rfl
  · exact fun hne => absurd rfl hne

/-- A process has no parent if it is the only one of its terminal. -/
theorem parent_eq_zero (h : Represents k s) {n : Fin 6} {l : List (Fin 6)}
    (htop : s.on k.executingTerminal = n :: l) : k.activePcb.parentPcb = 0 ↔ l = [] := by
  obtain ⟨hactive, -, hrest⟩ := h.top htop
  have hcurrent : k.current.activePcb = slotAddr n := hactive
  unfold Kernel.activePcb
  rw [hcurrent]
  exact hrest.eq_null_iff

/-- A call of a process keeps the stacks, and does one of the four things to them. -/
theorem call (h : Represents k s) {b : Boot} {call : Call}
    (henabled : ∀ a, call = .halt a → 0 < k.current.numProcessExecutingOnTerminal)
    (hcall : (runCall b call k).state = some k') :
    ∃ s', Represents k' s' ∧ StackStep k.executingTerminal s s' := by
  rcases runCall_cases hcall with ⟨a, -, hret⟩ | ⟨a, entry, n, -, -, hslot, hlaunch⟩ |
    ⟨a, k₁, n, hhalt, hzero, hreleased, hslot, hlaunch⟩ |
    ⟨a, k₁, pcb, hhalt, hparent, hreleased, hpcb, rfl, -⟩
  · exact ⟨s, h.fail (sysExecute_returned hret).1, StackStep.fail s⟩
  · obtain ⟨m, rfl, hfree⟩ := freeSlot_some hslot
    obtain ⟨hm, hk'⟩ := h.launch hfree hlaunch
    exact ⟨_, hk', StackStep.start s m hm⟩
  · obtain ⟨top, l, htop⟩ := h.exists_top (henabled a hhalt)
    obtain rfl := (h.parent_eq_zero htop).mp hzero
    obtain ⟨m, rfl, hfree⟩ := freeSlot_some hslot
    obtain ⟨hm, hk'⟩ := (h.release htop hreleased).launch hfree hlaunch
    have hexecuting := hreleased.executingTerminal
    revert hm hk'
    rw [hexecuting]
    exact fun hm hk' => ⟨_, hk', StackStep.restart s top m htop hm⟩
  · obtain ⟨top, l, htop⟩ := h.exists_top (henabled a hhalt)
    have hk' := h.resume htop hreleased hpcb
    cases l with
    | nil => exact absurd ((h.parent_eq_zero htop).mpr rfl) hparent
    | cons m l => exact ⟨_, hk', StackStep.finish s top m l htop⟩

/-- A halt that returns, returns to the process below. -/
theorem resumed (h : Represents k s) {b : Boot} {call : Call} {eax esp ebp : Nat}
    (henabled : ∀ a, call = .halt a → 0 < k.current.numProcessExecutingOnTerminal)
    (hout : runCall b call k = .resumed eax esp ebp k') :
    ∃ n m l, s.on k.executingTerminal = n :: m :: l ∧
      Represents k' (s.pop k.executingTerminal) := by
  obtain ⟨a, k₁, pcb, hhalt, hparent, hreleased, hpcb, rfl, -⟩ := runCall_resumed hout
  obtain ⟨n, l, htop⟩ := h.exists_top (henabled a hhalt)
  cases l with
  | nil => exact absurd ((h.parent_eq_zero htop).mpr rfl) hparent
  | cons m l => exact ⟨n, m, l, htop, h.resume htop hreleased hpcb⟩

end Represents

/-! ## Runs -/

/-- A call on a terminal, whichever is executing before. Only a terminal that has
been started has a process that can halt. -/
def ProcStep (b : Boot) (k : Kernel) (label : Fin 3 × Call) (k' : Kernel) : Prop :=
  (∀ a, label.2 = .halt a → 0 < (k.terminals label.1).numProcessExecutingOnTerminal) ∧
    (runCall b label.2 (k.onTerminal label.1)).state = some k'

theorem Represents.onTerminal {k : Kernel} {s : ProcessStacks} (h : Represents k s) (t : Fin 3) :
    Represents (k.onTerminal t) s :=
  h.of_same rfl (fun _ => ⟨rfl, rfl⟩) fun _ => ⟨rfl, rfl⟩

theorem Represents.step {b : Boot} {k k' : Kernel} {s : ProcessStacks} (h : Represents k s)
    {t : Fin 3} {call : Call} (hstep : ProcStep b k (t, call) k') :
    ∃ s', Represents k' s' ∧ StackStep t s s' :=
  (h.onTerminal t).call hstep.1 hstep.2

theorem boot_represents (b : Boot) (k : Kernel) : Represents (boot b k) Stacks.empty where
  linked := by
    intro t hnum
    rw [boot_terminals] at hnum
    exact absurd rfl hnum
  length := by
    intro t
    rw [boot_terminals]
    rfl
  processNum := fun _ n hn => absurd hn (List.not_mem_nil (a := n))
  used := by
    rintro n ⟨t, hn⟩
    exact absurd hn (List.not_mem_nil (a := n))
  unused := fun n _ => boot_processes b k n.isLt

theorem represents_run {b : Boot} {k₀ k : Kernel} {labels : List (Fin 3 × Call)}
    (hrun : Run (ProcStep b) (boot b k₀) labels k) : ∃ s, Represents k s :=
  hrun.invariant (P := fun k => ∃ s, Represents k s)
    (fun _ _ _ ⟨_, hs⟩ hstep => by
      obtain ⟨s', hs', -⟩ := hs.step hstep
      exact ⟨s', hs'⟩)
    ⟨Stacks.empty, boot_represents b k₀⟩

/-! ## Slots used from the lowest -/

/-- The slots below `n` are in use, and no other is. -/
structure UsedBelow (n : Nat) (k : Kernel) : Prop where
  used : ∀ i < n, k.processes i = 1
  free : ∀ i, n ≤ i → i < maxNumProcess → k.processes i = 0

theorem boot_usedBelow (b : Boot) (k : Kernel) : UsedBelow 0 (boot b k) where
  used := fun i hi => absurd hi (Nat.not_lt_zero i)
  free := fun _ _ hi => boot_processes b k hi

namespace UsedBelow

variable {n : Nat} {k k' : Kernel}

/-- The lowest free slot is found. -/
theorem freeSlot (h : UsedBelow n k) (hn : n < maxNumProcess) : freeSlot k = some n := by
  unfold Ece391Kernel.freeSlot
  rw [List.find?_range_eq_some]
  refine ⟨?_, List.mem_range.mpr hn, fun i hi => ?_⟩
  · simp [h.free n (Nat.le_refl n) hn]
  · simp [h.used i hi]

theorem onTerminal (h : UsedBelow n k) (t : Fin 3) : UsedBelow n (k.onTerminal t) :=
  ⟨h.used, h.free⟩

theorem launch (h : UsedBelow n k) {esp ebp : Nat} (hlaunch : Launch n esp ebp k k') :
    UsedBelow (n + 1) k' where
  used := by
    intro i hi
    rw [hlaunch.processes]
    by_cases hin : i = n
    · rw [hin, Function.update_self]
    · rw [Function.update_of_ne hin]
      exact h.used i (by omega)
  free := by
    intro i hi hi'
    have hin : i ≠ n := by omega
    rw [hlaunch.processes, Function.update_of_ne hin]
    exact h.free i (by omega) hi'

end UsedBelow

namespace Launch

variable {n esp ebp : Nat} {k k' : Kernel} {t : Fin 3}

theorem num_same (h : Launch n esp ebp (k.onTerminal t) k') :
    (k'.terminals t).numProcessExecutingOnTerminal =
      (k.terminals t).numProcessExecutingOnTerminal + 1 := by
  rw [h.terminals, Kernel.onTerminal_executingTerminal, Function.update_self]
  rfl

theorem num_other (h : Launch n esp ebp (k.onTerminal t) k') {u : Fin 3} (hu : u ≠ t) :
    (k'.terminals u).numProcessExecutingOnTerminal =
      (k.terminals u).numProcessExecutingOnTerminal := by
  rw [h.terminals, Kernel.onTerminal_executingTerminal, Function.update_of_ne hu]
  rfl

theorem represents (h : Launch n esp ebp k k') {s : ProcessStacks} (hs : Represents k s)
    (hslots : UsedBelow n k) (hlt : n < maxNumProcess) : ∃ s', Represents k' s' := by
  obtain ⟨_, hs'⟩ := hs.launch (n := ⟨n, hlt⟩) (hslots.free n (Nat.le_refl n) hlt) h
  exact ⟨_, hs'⟩

end Launch

/-- A command for the shell of the small image starts it in the next slot. -/
theorem smallBoot_next {command : CString} {k : Kernel} {n : Nat}
    (hidx : findDirentry smallBoot (commandName command) = some 0) (hslots : UsedBelow n k)
    (hn : n < maxNumProcess) (hnum : k.numProcessExecuting = UInt32.ofNat n) (t : Fin 3) :
    ∃ k', sysExecute smallBoot (smallArgs command) (k.onTerminal t) = .launched 0x08048000 k' ∧
      Launch n 0 0 (k.onTerminal t) k' ∧ UsedBelow (n + 1) k' ∧
      k'.numProcessExecuting = UInt32.ofNat (n + 1) := by
  have hslot := (hslots.onTerminal t).freeSlot hn
  have hroom : (k.onTerminal t).numProcessExecuting ≠ 6 := by
    have hlt : n < 6 := hn
    rw [Kernel.onTerminal_numProcessExecuting, hnum]
    interval_cases n <;> decide
  obtain ⟨k', hk'⟩ := smallBoot_named hidx hroom hslot hn
  obtain ⟨m, hslot', hlaunch⟩ := sysExecute_launched hk'
  obtain rfl : n = m := Option.some.inj (hslot.symm.trans hslot')
  refine ⟨k', hk', hlaunch, (hslots.onTerminal t).launch hlaunch, ?_⟩
  rw [hlaunch.numProcessExecuting, Kernel.onTerminal_numProcessExecuting, hnum, UInt32.ofNat_add]
  rfl

theorem smallBoot_next_shell {k : Kernel} {n : Nat} (hslots : UsedBelow n k)
    (hn : n < maxNumProcess) (hnum : k.numProcessExecuting = UInt32.ofNat n) (t : Fin 3) :
    ∃ k', sysExecute smallBoot (smallArgs shellCommand) (k.onTerminal t) =
        .launched 0x08048000 k' ∧
      Launch n 0 0 (k.onTerminal t) k' ∧ UsedBelow (n + 1) k' ∧
      k'.numProcessExecuting = UInt32.ofNat (n + 1) :=
  smallBoot_next (by decide +kernel) hslots hn hnum t

/-- The shell of the small image can be started on every terminal while there is room. -/
theorem smallBoot_shell_push {k : Kernel} {s : ProcessStacks} (hs : Represents k s) {n : Fin 6}
    (hslots : UsedBelow n k) (hnum : k.numProcessExecuting = UInt32.ofNat n) (t : Fin 3) :
    ∃ k' s', ProcStep smallBoot k (t, .execute (smallArgs shellCommand)) k' ∧
      Represents k' s' ∧ s'.on t = n :: s.on t ∧ (∀ u, u ≠ t → s'.on u = s.on u) ∧
      UsedBelow (n + 1) k' ∧ k'.numProcessExecuting = UInt32.ofNat (n + 1) := by
  obtain ⟨k', hk', hlaunch, hslots', hnum'⟩ := smallBoot_next_shell hslots n.isLt hnum t
  obtain ⟨hn, hs'⟩ := (hs.onTerminal t).launch (hslots.free n (Nat.le_refl _) n.isLt) hlaunch
  refine ⟨k', _, ⟨fun a ha => absurd ha (by simp), ?_⟩, hs', Stacks.push_on_self s t n hn,
    fun u hu => Stacks.push_on_ne s n hn hu, hslots', hnum'⟩
  simp only [runCall, hk', Outcome.state]

theorem smallBoot_shell_step {k : Kernel} {n : Nat} (hslots : UsedBelow n k)
    (hn : n < maxNumProcess) (hnum : k.numProcessExecuting = UInt32.ofNat n) (t : Fin 3) :
    ∃ k', ProcStep smallBoot k (t, .execute (smallArgs shellCommand)) k' ∧
      k'.numProcessExecuting = UInt32.ofNat (n + 1) := by
  obtain ⟨k', hk', -, -, hnum'⟩ := smallBoot_next_shell hslots hn hnum t
  refine ⟨k', ⟨fun a ha => absurd ha (by simp), ?_⟩, hnum'⟩
  simp only [runCall, hk', Outcome.state]

/-- A process that has a parent can halt. -/
theorem Represents.exists_halt {k : Kernel} {s : ProcessStacks} (hs : Represents k s) {t : Fin 3}
    {n m : Fin 6} {l : List (Fin 6)} (htop : s.on t = n :: m :: l) (b : Boot) (a : HaltArgs) :
    ∃ eax esp ebp k', runCall b (.halt a) (k.onTerminal t) = .resumed eax esp ebp k' ∧
      ProcStep b k (t, .halt a) k' ∧ Represents k' (s.pop t) ∧
      k'.numProcessExecuting = k.numProcessExecuting - 1 := by
  have hk := hs.onTerminal t
  have hstarted : 0 < (k.terminals t).numProcessExecutingOnTerminal := by
    rw [hs.length, htop, List.length_cons]
    exact Int.natCast_pos.mpr (Nat.succ_pos _)
  rcases sysHalt_cases b a (k.onTerminal t) with ⟨hzero, -⟩ | ⟨-, pcb, -, hresumed⟩
  · exact absurd ((hk.parent_eq_zero htop).mp hzero) (List.cons_ne_nil m l)
  · have hcall : runCall b (.halt a) (k.onTerminal t) = _ := hresumed
    obtain ⟨-, -, -, -, hk'⟩ := hk.resumed (fun _ _ => hstarted) hcall
    have hstep : ProcStep b k (t, .halt a) _ := ⟨fun _ _ => hstarted, congrArg Outcome.state hcall⟩
    exact ⟨_, _, _, _, hcall, hstep, hk', (release_released (k.onTerminal t)).numProcessExecuting⟩

/-! ## With the argument buffer in its place -/

/-- A call on a terminal. -/
def ProcStepInPlace (b : Boot) (k : Kernel) (label : Fin 3 × Call) (k' : Kernel) : Prop :=
  (∀ a, label.2 = .halt a → 0 < (k.terminals label.1).numProcessExecutingOnTerminal) ∧
    (runCallInPlace b label.2 (k.onTerminal label.1)).bind Outcome.state = some k'

/-- The argument of the call fits into the buffer. -/
def FitsBuffer (_ : Kernel) (label : Fin 3 × Call) : Prop := label.2.Fits

/-- The step as it is carried out. -/
def seenLabel (label : Fin 3 × Call) : Fin 3 × Call := (label.1, label.2.seen)

theorem procStepInPlace_iff {b : Boot} {k k' : Kernel} {label : Fin 3 × Call}
    (hfits : label.2.Fits) :
    ProcStepInPlace b k label k' ↔ ProcStep b k (seenLabel label) k' := by
  unfold ProcStepInPlace ProcStep seenLabel
  simp only [runCallInPlace_of_fits b hfits, Option.bind_some, Call.seen_eq_halt]

/-- A run in place is a run of calls with buffers of their own. -/
theorem run_procStep {b : Boot} {k k' : Kernel} {labels : List (Fin 3 × Call)}
    (hrun : Run (guarded FitsBuffer (ProcStepInPlace b)) k labels k') :
    Run (ProcStep b) k (labels.map seenLabel) k' :=
  hrun.map_labels fun _ _ _ hstep => (procStepInPlace_iff hstep.1).mp hstep.2

/-- And the other way round, if the commands are carried out as they are. -/
theorem run_inPlace {b : Boot} {k k' : Kernel} {labels : List (Fin 3 × Call)}
    (hrun : Run (ProcStep b) k labels k') (hplain : ∀ label ∈ labels, label.2.Plain) :
    Run (guarded FitsBuffer (ProcStepInPlace b)) k labels k' := by
  refine hrun.mono_of_labels (fun s label t hlabel hstep => ⟨hlabel.fits, ?_⟩) hplain
  rw [procStepInPlace_iff hlabel.fits]
  unfold seenLabel
  rw [hlabel.seen]
  exact hstep

/-- The calls for the shell and for `note` are carried out as they are. -/
theorem plain_shell : (Call.execute (smallArgs shellCommand)).Plain :=
  Call.plain_execute rfl (by decide) (by decide)

theorem plain_note : (Call.execute (smallArgs noteName)).Plain :=
  Call.plain_execute rfl (by decide) (by decide)

/-- In every state that calls on the three terminals reach from boot, as long as the arguments
fit into the buffer, the control blocks from `active_pcb` down are the stacks of the terminals,
which share no slot, and the slots in use are those on the stacks. The next call, on terminal
`t`, leaves the stacks of the other terminals alone; and a halt that returns, returns to the
process below, which is still there. -/
theorem process_tree_in_every_run (b : Boot) (k₀ k : Kernel) (labels : List (Fin 3 × Call))
    (hrun : Run (guarded FitsBuffer (ProcStepInPlace b)) (boot b k₀) labels k) :
    ∃ s : ProcessStacks, Represents k s ∧
      (∀ n : Fin 6, k.processes n = 1 ↔ ∃ t, n ∈ s.on t) ∧
      ∀ t call k', call.Fits → ProcStepInPlace b k (t, call) k' →
        ∃ s', Represents k' s' ∧ StackStep t s s' ∧ (∀ u, u ≠ t → s'.on u = s.on u) ∧
          ∀ eax esp ebp, runCall b call (k.onTerminal t) = .resumed eax esp ebp k' →
            ∃ n m l, s.on t = n :: m :: l ∧ s'.on t = m :: l ∧
              (k'.terminals t).activePcb = slotAddr m ∧ k'.processes m = 1 := by
  obtain ⟨s, hs⟩ := represents_run (run_procStep hrun)
  refine ⟨s, hs, ?_, ?_⟩
  · intro n
    constructor
    · intro hused
      by_contra hnot
      rw [hs.unused n hnot] at hused
      exact absurd hused (by decide)
    · exact hs.used n
  · intro t call k' hfits hstep
    have hproc : ProcStep b k (t, call.seen) k' := (procStepInPlace_iff hfits).mp hstep
    by_cases hresumed : ∃ eax esp ebp, runCall b call (k.onTerminal t) = .resumed eax esp ebp k'
    · obtain ⟨eax, esp, ebp, hout⟩ := hresumed
      obtain ⟨n, m, l, htop, hk'⟩ := (hs.onTerminal t).resumed hstep.1 hout
      rw [Kernel.onTerminal_executingTerminal] at htop hk'
      have hon : (s.pop t).on t = m :: l := by rw [Stacks.pop_on_self, htop, List.tail_cons]
      refine ⟨_, hk', StackStep.finish s n m l htop, fun u hu => Stacks.pop_on_ne s hu, ?_⟩
      intro _ _ _ _
      exact ⟨n, m, l, htop, hon, (hk'.top hon).1,
        hk'.used m ⟨t, by rw [hon]; exact List.mem_cons_self⟩⟩
    · obtain ⟨s', hs', hstack⟩ := hs.step hproc
      refine ⟨s', hs', hstack, fun u hu => hstack.other hu, ?_⟩
      intro eax esp ebp hout
      exact absurd ⟨eax, esp, ebp, hout⟩ hresumed

/-- Two shells, one the child of the other, and one on another terminal. -/
theorem exists_threeProcesses : ∃ k s,
    Run (ProcStep smallBoot) (boot smallBoot blankKernel)
        [(0, .execute (smallArgs shellCommand)), (0, .execute (smallArgs shellCommand)),
          (1, .execute (smallArgs shellCommand))] k ∧
      Represents k s ∧ s.on 0 = [1, 0] ∧ s.on 1 = [2] ∧ k.numProcessExecuting = 3 := by
  obtain ⟨k₁, s₁, hstep₁, hs₁, htop₁, hother₁, hslots₁, hnum₁⟩ := smallBoot_shell_push (n := 0)
    (boot_represents smallBoot blankKernel) (boot_usedBelow smallBoot blankKernel)
    (boot_numProcessExecuting smallBoot blankKernel) 0
  obtain ⟨k₂, s₂, hstep₂, hs₂, htop₂, hother₂, hslots₂, hnum₂⟩ :=
    smallBoot_shell_push (n := 1) hs₁ hslots₁ hnum₁ 0
  obtain ⟨k₃, s₃, hstep₃, hs₃, htop₃, hother₃, -, hnum₃⟩ :=
    smallBoot_shell_push (n := 2) hs₂ hslots₂ hnum₂ 1
  refine ⟨k₃, s₃, Run.snoc (Run.snoc (Run.single hstep₁) hstep₂) hstep₃, hs₃, ?_, ?_, hnum₃⟩
  · rw [hother₃ 0 (by decide), htop₂, htop₁]
    rfl
  · rw [htop₃, hother₂ 1 (by decide), hother₁ 1 (by decide)]
    rfl

/-- The child halts. -/
theorem process_tree_in_every_run_halt : ∃ k s k' s',
    Run (guarded FitsBuffer (ProcStepInPlace smallBoot)) (boot smallBoot blankKernel)
        [(0, .execute (smallArgs shellCommand)), (0, .execute (smallArgs shellCommand)),
          (1, .execute (smallArgs shellCommand))] k ∧
      Represents k s ∧ ProcStepInPlace smallBoot k (0, .halt smallHalt) k' ∧ Represents k' s' ∧
      (∀ u, u ≠ 0 → s'.on u = s.on u) ∧
      ∃ n m l, s.on 0 = n :: m :: l ∧ s'.on 0 = m :: l ∧
        (k'.terminals 0).activePcb = slotAddr m ∧ k'.processes m = 1 := by
  obtain ⟨k, s₀, hrun, hs₀, htop, -⟩ := exists_threeProcesses
  obtain ⟨eax, esp, ebp, k', hout, hstep, -⟩ := hs₀.exists_halt htop smallBoot smallHalt
  have hrun' := run_inPlace hrun fun label hlabel => by
    simp only [List.mem_cons, List.not_mem_nil, or_false] at hlabel
    rcases hlabel with rfl | rfl | rfl <;> exact plain_shell
  have hhalt : (Call.halt smallHalt).Plain := Call.plain_halt smallHalt
  have hstep' : ProcStepInPlace smallBoot k (0, .halt smallHalt) k' :=
    (procStepInPlace_iff hhalt.fits).mpr hstep
  obtain ⟨s, hs, -, hnext⟩ := process_tree_in_every_run smallBoot blankKernel k _ hrun'
  obtain ⟨s', hs', -, hother, hparent⟩ := hnext 0 _ k' hhalt.fits hstep'
  exact ⟨k, s, k', s', hrun', hs, hstep', hs', hother, hparent eax esp ebp hout⟩

/-- With a shell on the first terminal, a call there for another with an argument of 161
characters starts it on the second. -/
theorem exists_long_argument : ∃ k k',
    Run (ProcStepInPlace smallBoot) (boot smallBoot blankKernel)
        [(0, .execute (smallArgs shellCommand))] k ∧
      ProcStepInPlace smallBoot k (0, .execute (smallArgs longShell)) k' ∧
      (k.terminals 1).numProcessExecutingOnTerminal = 0 ∧
      (k'.terminals 1).numProcessExecutingOnTerminal = 1 := by
  obtain ⟨k, s, hstep, hs, -, hother, hslots, hnum⟩ := smallBoot_shell_push (n := 0)
    (boot_represents smallBoot blankKernel) (boot_usedBelow smallBoot blankKernel)
    (boot_numProcessExecuting smallBoot blankKernel) 0
  have hzero : (k.terminals 1).numProcessExecutingOnTerminal = 0 := by
    rw [hs.length, hother 1 (by decide)]
    rfl
  have hroom : (k.onTerminal 0).numProcessExecuting ≠ 6 := by
    rw [Kernel.onTerminal_numProcessExecuting, hnum]
    decide
  have hidx : findDirentry smallBoot (commandName longShell) = some 0 := by decide +kernel
  obtain ⟨n, hcall⟩ := sysExecuteInPlace_executing (a := smallArgs longShell) (t := 1) hroom rfl
    (by decide +kernel) (by decide +kernel) hidx (by decide +kernel)
  generalize hk₁ : { parseCommand longShell (k.onTerminal 0) with
    argLength := n, executingTerminal := 1 } = k₁ at hcall
  have hslot : freeSlot k₁ = some 1 := by
    rw [← hk₁]
    exact hslots.freeSlot (by decide)
  have hfit : FitsFrame (programBytes smallBoot (direntryInode smallBoot 0)) := by decide +kernel
  obtain ⟨k', hlaunched⟩ := launch_fits (a := smallArgs longShell) hslot (by decide) hfit
  obtain ⟨m, -, hlaunch⟩ := launch_launched hlaunched
  have hexecuting : k₁.executingTerminal = 1 := by rw [← hk₁]
  have hterminals : k₁.terminals = k.terminals := by rw [← hk₁]; rfl
  refine ⟨k, k', Run.single ((procStepInPlace_iff plain_shell.fits).mpr ?_),
    ⟨fun a ha => absurd ha (by simp), ?_⟩, hzero, ?_⟩
  · unfold seenLabel
    rw [plain_shell.seen]
    exact hstep
  · simp only [runCallInPlace, hcall, Option.bind_some, hlaunched, Outcome.state]
  · rw [hlaunch.terminals, hexecuting, Function.update_self]
    unfold Kernel.current
    rw [hexecuting, hterminals, hzero]
    rfl

theorem long_argument_breaks_tree : ¬∀ (b : Boot) (k₀ k : Kernel) (labels : List (Fin 3 × Call)),
    Run (ProcStepInPlace b) (boot b k₀) labels k →
      ∃ s : ProcessStacks, Represents k s ∧
        ∀ t call k', ProcStepInPlace b k (t, call) k' →
          ∃ s', Represents k' s' ∧ ∀ u, u ≠ t → s'.on u = s.on u := by
  intro hall
  obtain ⟨k, k', hrun, hstep, hbefore, hafter⟩ := exists_long_argument
  obtain ⟨s, hs, hnext⟩ := hall smallBoot blankKernel k _ hrun
  obtain ⟨s', hs', hother⟩ := hnext 0 _ k' hstep
  have hlength := hs'.length 1
  rw [hother 1 (by decide), ← hs.length 1, hbefore, hafter] at hlength
  exact absurd hlength (by decide)

end Ece391Kernel
