import Ece391Kernel.Library.Run

/-!
# Programs that make calls

A program is given by what it does at each of its places: it makes a call, and the result decides
where it goes on, or it has exited. It shares a state with others, which may change this state
between any two of its calls. What holds at its places, of the calls it has made so far and of the
state, is a proof outline; the rule for outlines asks that a call leads from one place to the next
and that the others keep what holds.
-/

namespace Programs

open TransitionSystem

/-- What a program does next. -/
inductive Action (C R L : Type*)
  | call (c : C) (next : R → L)
  | exit (code : Int)

/-- The program makes a call, or the others do something. -/
inductive Event (C R : Type*)
  | own (c : C) (r : R)
  | other

/-- The shared state, and the place of the program. -/
structure Config (σ L : Type*) where
  state : σ
  place : L

section

variable {σ C R L : Type*}

/-- The steps of a program and of the others. -/
inductive Step (action : L → Action C R L) (perform : C → σ → R → σ → Prop)
    (others : σ → σ → Prop) : Config σ L → Event C R → Config σ L → Prop
  | own {s s' : σ} {l : L} {c : C} {r : R} {next : R → L} (haction : action l = .call c next)
      (hperform : perform c s r s') :
      Step action perform others ⟨s, l⟩ (.own c r) ⟨s', next r⟩
  | other {s s' : σ} {l : L} (hothers : others s s') :
      Step action perform others ⟨s, l⟩ .other ⟨s', l⟩

/-- The calls of the program among the events, with their results. -/
def calls (events : List (Event C R)) : List (C × R) :=
  events.filterMap fun e =>
    match e with
    | .own c r => some (c, r)
    | .other => none

@[simp] theorem calls_nil : calls ([] : List (Event C R)) = [] := rfl

@[simp] theorem calls_concat_own (events : List (Event C R)) (c : C) (r : R) :
    calls (events ++ [.own c r]) = calls events ++ [(c, r)] := by
  simp [calls]

@[simp] theorem calls_concat_other (events : List (Event C R)) :
    calls (events ++ [.other]) = calls events := by
  simp [calls]

variable {action : L → Action C R L} {perform : C → σ → R → σ → Prop} {others : σ → σ → Prop}

/-- The rule for proof outlines. -/
theorem outline {I : L → List (C × R) → σ → Prop}
    (hown : ∀ l trace s c next r s', I l trace s → action l = .call c next → perform c s r s' →
      I (next r) (trace ++ [(c, r)]) s')
    (hothers : ∀ l trace s s', I l trace s → others s s' → I l trace s')
    {m m' : Config σ L} {events : List (Event C R)}
    (hrun : Run (Step action perform others) m events m') (hstart : I m.place [] m.state) :
    I m'.place (calls events) m'.state := by
  induction hrun with
  | nil => exact hstart
  | snoc _ hlast ih =>
      cases hlast with
      | own haction hperform =>
          rw [calls_concat_own]
          exact hown _ _ _ _ _ _ _ ih haction hperform
      | other hstep =>
          rw [calls_concat_other]
          exact hothers _ _ _ _ ih hstep

@[simp] theorem calls_append (events events' : List (Event C R)) :
    calls (events ++ events') = calls events ++ calls events' :=
  List.filterMap_append

/-- A program by itself, on a state that answers all its calls, goes on for as many calls as one
likes unless it exits. -/
theorem exists_run_alone (perform : C → σ → R → σ → Prop) (others : σ → σ → Prop)
    {m₀ m : Config σ L} {before : List (Event C R)} {I : L → List (C × R) → σ → Prop}
    (hcan : ∀ l trace s c next, I l trace s → action l = .call c next → ∃ r s', perform c s r s' ∧
      I (next r) (trace ++ [(c, r)]) s')
    (hbefore : Run (Step action perform others) m₀ before m)
    (hstart : I m.place (calls before) m.state) (n : Nat) :
    ∃ events m', Run (Step action perform others) m₀ (before ++ events) m' ∧
      I m'.place (calls (before ++ events)) m'.state ∧
      ((calls events).length = n ∨ ∃ code, action m'.place = .exit code) := by
  induction n with
  | zero =>
      refine ⟨[], m, ?_, ?_, Or.inl rfl⟩
      · rw [List.append_nil]
        exact hbefore
      · rw [List.append_nil]
        exact hstart
  | succ n ih =>
      obtain ⟨events, ⟨s, l⟩, hrun, hI, hlen | hexit⟩ := ih
      · cases haction : action l with
        | exit code => exact ⟨events, ⟨s, l⟩, hrun, hI, Or.inr ⟨code, haction⟩⟩
        | call c next =>
            obtain ⟨r, s', hperform, hI'⟩ := hcan l _ s c next hI haction
            refine ⟨events ++ [.own c r], ⟨s', next r⟩, ?_, ?_, Or.inl ?_⟩
            · rw [← List.append_assoc]
              exact hrun.snoc (.own haction hperform)
            · rw [← List.append_assoc, calls_concat_own]
              exact hI'
            · rw [calls_concat_own, List.length_append, hlen]
              rfl
      · exact ⟨events, ⟨s, l⟩, hrun, hI, Or.inr hexit⟩

end

end Programs
