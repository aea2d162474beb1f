import Mathlib.Logic.Basic

/-!
# Runs of a partial step function

A step function that may get stuck, run over a list of inputs. `run_invariant` is the rule for
properties of every reachable state, `run_refines` the rule for a step function that follows a
total specification, `run_simulates` the rule for two step functions, `run_beside` and
`beside_invariant` the rules for a value kept beside the states; all ask for one step only.
-/

namespace FeedHandler.Runs

universe u v w

variable {σ : Type u} {ι : Type v} {τ : Type w} (step : σ → ι → Option σ)

/-- The state after a list of inputs, if no step gets stuck. -/
def run : σ → List ι → Option σ
  | s, [] => some s
  | s, i :: l => step s i >>= fun s' => run s' l

@[simp] theorem run_nil (s : σ) : run step s [] = some s := rfl

@[simp] theorem run_cons (s : σ) (i : ι) (l : List ι) :
    run step s (i :: l) = (step s i).bind fun s' => run step s' l := rfl

theorem run_append (s : σ) (l l' : List ι) :
    run step s (l ++ l') = (run step s l).bind fun s' => run step s' l' := by
  induction l generalizing s with
  | nil => rfl
  | cons i l ih =>
      rw [List.cons_append, run_cons, run_cons]
      cases step s i with
      | none => rfl
      | some s' => exact ih s'

theorem run_concat (s : σ) (l : List ι) (i : ι) :
    run step s (l ++ [i]) = (run step s l).bind fun s' => step s' i := by
  rw [run_append]
  congr 1
  funext s'
  cases h : step s' i with
  | none => simp [h]
  | some _ => simp [h]

/-- A condition on states and inputs holds at every step of a run. -/
def Along (ok : σ → ι → Prop) : σ → List ι → Prop
  | _, [] => True
  | s, i :: l => ok s i ∧ ∀ s', step s i = some s' → Along ok s' l

variable {step}

instance Along.decidable {ok : σ → ι → Prop} [∀ s i, Decidable (ok s i)] :
    ∀ s l, Decidable (Along step ok s l)
  | _, [] => isTrue trivial
  | s, i :: l =>
      match h : step s i with
      | none => decidable_of_iff (ok s i)
          ⟨fun hok => ⟨hok, fun _ hs' => by rw [h] at hs'; cases hs'⟩, And.left⟩
      | some s' =>
          have : Decidable (Along step ok s' l) := Along.decidable s' l
          decidable_of_iff (ok s i ∧ Along step ok s' l) (by simp [Along, h])

theorem along_append {ok : σ → ι → Prop} {s : σ} {l l' : List ι} :
    Along step ok s (l ++ l') ↔
      Along step ok s l ∧ ∀ s', run step s l = some s' → Along step ok s' l' := by
  induction l generalizing s with
  | nil => simp [Along]
  | cons i l ih =>
      simp only [List.cons_append, Along, ih, run_cons, Option.bind_eq_some_iff]
      constructor
      · intro h
        obtain ⟨hok, hrest⟩ := h
        refine ⟨⟨hok, fun s' hs' => (hrest s' hs').1⟩, ?_⟩
        intro s'' h
        obtain ⟨s', hs', hrun⟩ := h
        exact (hrest s' hs').2 s'' hrun
      · intro h
        obtain ⟨⟨hok, hl⟩, hl'⟩ := h
        exact ⟨hok, fun s' hs' => ⟨hl s' hs', fun s'' hrun => hl' s'' ⟨s', hs', hrun⟩⟩⟩

theorem Along.imp {ok ok' : σ → ι → Prop} (h : ∀ s i, ok s i → ok' s i) {s : σ} {l : List ι}
    (hl : Along step ok s l) : Along step ok' s l := by
  induction l generalizing s with
  | nil => trivial
  | cons i l ih => exact ⟨h s i hl.1, fun s' hs' => ih (hl.2 s' hs')⟩

/-- A condition follows from others along a run if it does in every state of an invariant. -/
theorem Along.imp_of_inv {inv : σ → Prop} {ok P Q : σ → ι → Prop}
    (hstep : ∀ s i s', inv s → ok s i → step s i = some s' → inv s')
    (himp : ∀ s i, inv s → ok s i → P s i → Q s i) {s : σ} {l : List ι} (hs : inv s)
    (hok : Along step ok s l) (hP : Along step P s l) : Along step Q s l := by
  induction l generalizing s with
  | nil => trivial
  | cons i l ih =>
      refine ⟨himp s i hs hok.1 hP.1, fun s' hs' => ?_⟩
      exact ih (hstep s i s' hs hok.1 hs') (hok.2 s' hs') (hP.2 s' hs')

/-- Two conditions along a run. -/
theorem Along.and {P Q : σ → ι → Prop} {s : σ} {l : List ι} (hP : Along step P s l)
    (hQ : Along step Q s l) : Along step (fun s i => P s i ∧ Q s i) s l := by
  induction l generalizing s with
  | nil => trivial
  | cons i l ih => exact ⟨⟨hP.1, hQ.1⟩, fun s' hs' => ih (hP.2 s' hs') (hQ.2 s' hs')⟩

/-- An invariant that every admitted step keeps holds after every admitted run, and no step of such
a run gets stuck. -/
theorem run_invariant {inv : σ → Prop} {ok : σ → ι → Prop}
    (hstep : ∀ s i, inv s → ok s i → ∃ s', step s i = some s' ∧ inv s') {s : σ} {l : List ι}
    (hs : inv s) (hl : Along step ok s l) : ∃ s', run step s l = some s' ∧ inv s' := by
  induction l generalizing s with
  | nil => exact ⟨s, rfl, hs⟩
  | cons i l ih =>
      obtain ⟨hok, hrest⟩ := hl
      obtain ⟨s', hs', hinv⟩ := hstep s i hs hok
      obtain ⟨s'', hrun, hinv'⟩ := ih hinv (hrest s' hs')
      exact ⟨s'', by rw [run_cons, hs', Option.bind_some, hrun], hinv'⟩

/-- An invariant that every admitted step keeps holds after every admitted run that does not get
stuck. -/
theorem invariant_of_run {inv : σ → Prop} {ok : σ → ι → Prop}
    (hstep : ∀ s i s', inv s → ok s i → step s i = some s' → inv s') {s s' : σ} {l : List ι}
    (hs : inv s) (hl : Along step ok s l) (hrun : run step s l = some s') : inv s' := by
  induction l generalizing s with
  | nil =>
      cases hrun
      exact hs
  | cons i l ih =>
      rw [run_cons, Option.bind_eq_some_iff] at hrun
      obtain ⟨s₁, hs₁, hrun⟩ := hrun
      exact ih (hstep s i s₁ hs hl.1 hs₁) (hl.2 s₁ hs₁) hrun

/-- A step function that follows a total specification from related states does so over every
run. -/
theorem run_refines {spec : τ → ι → τ} {rel : σ → τ → Prop} {ok : ι → Prop}
    (hstep : ∀ s t i, rel s t → ok i → ∃ s', step s i = some s' ∧ rel s' (spec t i))
    {s : σ} {t : τ} {l : List ι} (hrel : rel s t) (hl : ∀ i ∈ l, ok i) :
    ∃ s', run step s l = some s' ∧ rel s' (l.foldl spec t) := by
  induction l generalizing s t with
  | nil => exact ⟨s, rfl, hrel⟩
  | cons i l ih =>
      obtain ⟨s', hs', hrel'⟩ := hstep s t i hrel (hl i List.mem_cons_self)
      obtain ⟨s'', hrun, hrel''⟩ := ih hrel' fun j hj => hl j (.tail _ hj)
      exact ⟨s'', by rw [run_cons, hs', Option.bind_some, hrun], hrel''⟩

/-- A condition on the inputs alone. -/
theorem along_of_forall {ok : ι → Prop} {l : List ι} (h : ∀ i ∈ l, ok i) (s : σ) :
    Along step (fun _ i => ok i) s l := by
  induction l generalizing s with
  | nil => trivial
  | cons i l ih => exact ⟨h i List.mem_cons_self, fun s' _ => ih (fun j hj => h j (.tail _ hj)) s'⟩

/-- Two step functions that keep a relation under conditions keep it over every run along which
the conditions hold. -/
theorem run_simulates {step' : τ → ι → Option τ} {rel : σ → τ → Prop} {ok : σ → ι → Prop}
    {ok' : τ → ι → Prop} (hstep : ∀ s t i, rel s t → ok s i → ok' t i →
      ∃ s' t', step s i = some s' ∧ step' t i = some t' ∧ rel s' t')
    {s : σ} {t : τ} {l : List ι} (hrel : rel s t) (hl : Along step ok s l)
    (hl' : Along step' ok' t l) :
    ∃ s' t', run step s l = some s' ∧ run step' t l = some t' ∧ rel s' t' := by
  induction l generalizing s t with
  | nil => exact ⟨s, t, rfl, rfl, hrel⟩
  | cons i l ih =>
      obtain ⟨s', t', hs', ht', hrel'⟩ := hstep s t i hrel hl.1 hl'.1
      obtain ⟨s'', t'', hrun, hrun', hrel''⟩ := ih hrel' (hl.2 s' hs') (hl'.2 t' ht')
      exact ⟨s'', t'', by rw [run_cons, hs', Option.bind_some, hrun],
        by rw [run_cons, ht', Option.bind_some, hrun'], hrel''⟩

/-- Values that are related, and functions that keep them so. -/
theorem rel_bind {υ ω : Type*} {rel : σ → τ → Prop} {rel' : υ → ω → Prop} {x : Option σ}
    {y : Option τ} {f : σ → Option υ} {g : τ → Option ω} (h : Option.Rel rel x y)
    (hfg : ∀ s t, rel s t → Option.Rel rel' (f s) (g t)) :
    Option.Rel rel' (x.bind f) (y.bind g) := by
  cases h with
  | some h => exact hfg _ _ h
  | none => exact .none

/-- Two step functions that keep a relation, or both get stuck, do so over every run. -/
theorem run_rel {step' : τ → ι → Option τ} {rel : σ → τ → Prop} {ok : ι → Prop}
    (hstep : ∀ s t i, rel s t → ok i → Option.Rel rel (step s i) (step' t i))
    {s : σ} {t : τ} {l : List ι} (hrel : rel s t) (hl : ∀ i ∈ l, ok i) :
    Option.Rel rel (run step s l) (run step' t l) := by
  induction l generalizing s t with
  | nil => exact .some hrel
  | cons i l ih =>
      rw [run_cons, run_cons]
      exact rel_bind (hstep s t i hrel (hl i List.mem_cons_self))
        fun _ _ h => ih h fun j hj => hl j (.tail _ hj)

/-- A value kept beside the states of a run, as `update` changes it at every step. -/
def beside (step : σ → ι → Option σ) (update : σ → τ → ι → τ) : σ → τ → List ι → τ
  | _, t, [] => t
  | s, t, i :: l =>
      match step s i with
      | some s' => beside step update s' (update s t i) l
      | none => t

section Beside

variable {update : σ → τ → ι → τ} {inv : σ → τ → Prop} {ok : σ → ι → Prop}

theorem beside_cons {s s' : σ} {i : ι} (hs' : step s i = some s') (t : τ) (l : List ι) :
    beside step update s t (i :: l) = beside step update s' (update s t i) l := by
  rw [beside, hs']

/-- An invariant of the states and the value beside them, when no admitted step gets stuck. -/
theorem run_beside (hstep : ∀ s t i, inv s t → ok s i →
      ∃ s', step s i = some s' ∧ inv s' (update s t i))
    {s : σ} {t : τ} {l : List ι} (hs : inv s t) (hl : Along step ok s l) :
    ∃ s', run step s l = some s' ∧ inv s' (beside step update s t l) := by
  induction l generalizing s t with
  | nil => exact ⟨s, rfl, hs⟩
  | cons i l ih =>
      obtain ⟨s₁, hs₁, hinv₁⟩ := hstep s t i hs hl.1
      obtain ⟨s', hrun, hinv⟩ := ih hinv₁ (hl.2 s₁ hs₁)
      refine ⟨s', by rw [run_cons, hs₁, Option.bind_some, hrun], ?_⟩
      rw [beside_cons hs₁]
      exact hinv

/-- An invariant of the states and the value beside them, for runs that are known not to get
stuck. -/
theorem beside_invariant (hstep : ∀ s t i s', inv s t → ok s i → step s i = some s' →
      inv s' (update s t i))
    {s s' : σ} {t : τ} {l : List ι} (hs : inv s t) (hl : Along step ok s l)
    (hrun : run step s l = some s') : inv s' (beside step update s t l) := by
  induction l generalizing s t with
  | nil =>
      cases hrun
      exact hs
  | cons i l ih =>
      rw [run_cons, Option.bind_eq_some_iff] at hrun
      obtain ⟨s₁, hs₁, hrun⟩ := hrun
      rw [beside_cons hs₁]
      exact ih (hstep s t i s₁ hs hl.1 hs₁) (hl.2 s₁ hs₁) hrun

end Beside

/-- Inputs folded into a state that may be stuck. -/
theorem foldl_bind (s : Option σ) (l : List ι) :
    l.foldl (fun s i => s.bind fun s => step s i) s = s.bind fun s => run step s l := by
  induction l generalizing s with
  | nil => simp
  | cons i l ih =>
      rw [List.foldl_cons, ih, Option.bind_assoc]
      rfl

/-- A part of the state that the inputs of one kind change, and the others leave as it is. -/
theorem run_part (part : σ → τ) {kind : ι → Bool} {step' : τ → ι → Option τ}
    (hkind : ∀ s i s', step s i = some s' → kind i = true → step' (part s) i = some (part s'))
    (hother : ∀ s i s', step s i = some s' → kind i = false → part s' = part s)
    {s s' : σ} {l : List ι} (hrun : run step s l = some s') :
    run step' (part s) (l.filter kind) = some (part s') := by
  induction l generalizing s with
  | nil =>
      cases hrun
      rfl
  | cons i l ih =>
      rw [run_cons, Option.bind_eq_some_iff] at hrun
      obtain ⟨s₁, hs₁, hrun⟩ := hrun
      have hrest := ih hrun
      cases hi : kind i with
      | true =>
          rw [List.filter_cons_of_pos hi, run_cons, hkind s i s₁ hs₁ hi, Option.bind_some, hrest]
      | false =>
          rw [List.filter_cons_of_neg (by simp [hi])]
          rwa [hother s i s₁ hs₁ hi] at hrest

/-- The step function whose state is the list of inputs so far. -/
def record (seen : List ι) (i : ι) : Option (List ι) := some (seen ++ [i])

@[simp] theorem run_record (seen l : List ι) : run record seen l = some (seen ++ l) := by
  induction l generalizing seen with
  | nil => simp
  | cons i l ih => simp [record, ih]

end FeedHandler.Runs
