import Mathlib.Data.List.Induction

/-!
# Runs of a labelled transition relation

`Run R s ls t` says that the relation `R` can take the labels `ls`, oldest
first, from `s` to `t`. An invariant of the single step is an invariant of the
run. `guarded C R` keeps only those steps of `R` whose label and starting state
meet a condition `C`, so a statement about the runs all of whose steps meet a
condition is a statement about the runs of the guarded relation.
-/

namespace TransitionSystem

/-- The relation `R` takes the labels `ls` from the first state to the last. -/
inductive Run {σ ι : Type*} (R : σ → ι → σ → Prop) : σ → List ι → σ → Prop
  | nil (s : σ) : Run R s [] s
  | snoc {s t u : σ} {ls : List ι} {l : ι} :
      Run R s ls t → R t l u → Run R s (ls ++ [l]) u

/-- The steps of `R` whose label and starting state meet `C`. -/
def guarded {σ ι : Type*} (C : σ → ι → Prop) (R : σ → ι → σ → Prop) :
    σ → ι → σ → Prop :=
  fun s l t => C s l ∧ R s l t

namespace Run

variable {σ ι : Type*} {R : σ → ι → σ → Prop}

/-- A property of the start that every step preserves holds at the end. -/
theorem invariant {P : σ → Prop} (hstep : ∀ s l t, P s → R s l t → P t)
    {s t : σ} {ls : List ι} (h : Run R s ls t) (hs : P s) : P t := by
  induction h with
  | nil => exact hs
  | snoc _ hlast ih => exact hstep _ _ _ ih hlast

/-- A run of one step. -/
theorem single {s t : σ} {l : ι} (h : R s l t) : Run R s [l] t := by
  have hrun : Run R s ([] ++ [l]) t := Run.snoc (Run.nil s) h
  simpa using hrun

theorem append {s t u : σ} {ls ks : List ι} (h : Run R s ls t) (h' : Run R t ks u) :
    Run R s (ls ++ ks) u := by
  induction h' with
  | nil => simpa using h
  | snoc _ hlast ih =>
      rw [← List.append_assoc]
      exact Run.snoc ih hlast

theorem eq_of_nil {s t : σ} (h : Run R s [] t) : s = t := by
  generalize heq : ([] : List ι) = ls at h
  cases h with
  | nil => rfl
  | snoc _ _ => exact absurd heq (by simp)

/-- The last step of a run. -/
theorem of_concat {s u : σ} {ls : List ι} {l : ι} (h : Run R s (ls ++ [l]) u) :
    ∃ t, Run R s ls t ∧ R t l u := by
  generalize heq : ls ++ [l] = ks at h
  cases h with
  | nil => exact absurd heq (by simp)
  | snoc hrun hlast =>
      obtain ⟨rfl, hlabel⟩ := List.append_inj' heq rfl
      obtain rfl := List.head_eq_of_cons_eq hlabel
      exact ⟨_, hrun, hlast⟩

theorem of_append {s u : σ} {ls ks : List ι} (h : Run R s (ls ++ ks) u) :
    ∃ t, Run R s ls t ∧ Run R t ks u := by
  induction ks using List.reverseRecOn generalizing u with
  | nil =>
      rw [List.append_nil] at h
      exact ⟨u, h, nil u⟩
  | append_singleton ks l ih =>
      rw [← List.append_assoc] at h
      obtain ⟨v, hbefore, hlast⟩ := h.of_concat
      obtain ⟨t, hfirst, hrest⟩ := ih hbefore
      exact ⟨t, hfirst, hrest.snoc hlast⟩

/-- The first step of a run. -/
theorem of_cons {s u : σ} {ls : List ι} {l : ι} (h : Run R s (l :: ls) u) :
    ∃ t, R s l t ∧ Run R t ls u := by
  rw [← List.singleton_append] at h
  obtain ⟨t, hfirst, hrest⟩ := h.of_append
  obtain ⟨v, hnone, hstep⟩ := of_concat (show Run R s ([] ++ [l]) t from hfirst)
  obtain rfl := hnone.eq_of_nil
  exact ⟨t, hstep, hrest⟩

/-- The first steps of a run are a run. -/
theorem of_prefix {s u : σ} {ls ks : List ι} (h : Run R s ls u) (hpre : ks <+: ls) :
    ∃ t, Run R s ks t := by
  induction h with
  | nil =>
      rw [List.prefix_nil.mp hpre]
      exact ⟨_, nil _⟩
  | snoc hrun hlast ih =>
      rcases List.prefix_concat_iff.mp hpre with rfl | hbefore
      · exact ⟨_, snoc hrun hlast⟩
      · exact ih hbefore

/-- A run of `R` is a run of every relation that has the steps of `R`. -/
theorem mono {Q : σ → ι → σ → Prop} (hsub : ∀ s l t, R s l t → Q s l t)
    {s t : σ} {ls : List ι} (h : Run R s ls t) : Run Q s ls t := by
  induction h with
  | nil => exact Run.nil _
  | snoc _ hlast ih => exact Run.snoc ih (hsub _ _ _ hlast)

/-- It is enough to look at the labels of the run. -/
theorem mono_of_labels {Q : σ → ι → σ → Prop} {P : ι → Prop}
    (hsub : ∀ s l t, P l → R s l t → Q s l t) {s t : σ} {ls : List ι} (h : Run R s ls t)
    (hP : ∀ l ∈ ls, P l) : Run Q s ls t := by
  induction h with
  | nil => exact Run.nil _
  | snoc _ hlast ih =>
      exact Run.snoc (ih fun l hl => hP l (List.mem_append_left _ hl))
        (hsub _ _ _ (hP _ (List.mem_append_right _ (List.mem_singleton.mpr rfl))) hlast)

/-- Another relation may call the steps by other labels. -/
theorem map_labels {κ : Type*} {Q : σ → κ → σ → Prop} {f : ι → κ}
    (hstep : ∀ s l t, R s l t → Q s (f l) t) {s t : σ} {ls : List ι} (h : Run R s ls t) :
    Run Q s (ls.map f) t := by
  induction h with
  | nil => exact Run.nil _
  | snoc _ hlast ih =>
      rw [List.map_append]
      exact Run.snoc ih (hstep _ _ _ hlast)

end Run

/-- A run whose labels meet a condition in any state. -/
theorem Run.guarded_of_labels {σ ι : Type*} {C : σ → ι → Prop} {R : σ → ι → σ → Prop} {s t : σ}
    {ls : List ι} (h : Run R s ls t) (hC : ∀ l ∈ ls, ∀ s, C s l) :
    Run (guarded C R) s ls t :=
  h.mono_of_labels (fun s _ _ hl hstep => ⟨hl s, hstep⟩) hC

/-- Forgetting the guard of a run. -/
theorem Run.of_guarded {σ ι : Type*} {C : σ → ι → Prop} {R : σ → ι → σ → Prop}
    {s t : σ} {ls : List ι} (h : Run (guarded C R) s ls t) : Run R s ls t :=
  h.mono fun _ _ _ hstep => hstep.2

end TransitionSystem
