import Mathlib.Data.List.Basic

/-! Machines given by a partial step function. All nondeterminism is in the
events, so a run is a list of events and can be evaluated. -/
namespace Nawst.Lib.Machine

variable {σ ε : Type} (step : σ → ε → Option σ)

/-- Execute the events in order; none as soon as an event is not enabled. -/
def run : σ → List ε → Option σ
  | s, [] => some s
  | s, e::es => (step s e).bind (fun s' => run s' es)

/-- Every step of the run meets a condition on its pre-state and its event. -/
def Meets (G : σ → ε → Prop) : σ → List ε → Prop
  | _, [] => True
  | s, e::es => G s e ∧ match step s e with
    | none => True
    | some s' => Meets G s' es

instance Meets.decidable (G : σ → ε → Prop) [hd : ∀ s e, Decidable (G s e)] :
    (s : σ) → (es : List ε) → Decidable (Meets step G s es)
  | _, [] => isTrue trivial
  | s, e::es =>
    have tail : Decidable (match step s e with | none => True | some s' => Meets step G s' es) :=
      match step s e with
      | none => isTrue trivial
      | some s' => Meets.decidable G s' es
    @instDecidableAnd _ _ (hd s e) tail

/-- What the steps of a run put out, each of them as the state before it has it. -/
def outputs {β : Type} (out : σ → ε → List β) : σ → List ε → List β
  | _, [] => []
  | s, e::es => out s e ++ match step s e with
    | none => []
    | some s' => outputs out s' es

variable {step}

@[simp] theorem run_nil (s : σ) : run step s [] = some s := rfl

theorem run_cons {s t : σ} {e : ε} {es : List ε} :
    run step s (e::es) = some t ↔ ∃ s', step s e = some s' ∧ run step s' es = some t := by
  simp [run, Option.bind_eq_some_iff]

theorem meets_cons {G : σ → ε → Prop} {s s' : σ} {e : ε} {es : List ε} (hs : step s e = some s') :
    Meets step G s (e::es) ↔ G s e ∧ Meets step G s' es := by
  simp [Meets, hs]

/-- What each guarded step preserves, a run of guarded steps preserves. -/
theorem run_invariant_of_meets {G : σ → ε → Prop} {I : σ → Prop}
    (hstep : ∀ s e s', I s → G s e → step s e = some s' → I s')
    {s t : σ} {es : List ε} (hI : I s) (hG : Meets step G s es) (hr : run step s es = some t) : I t := by
  induction es generalizing s with
  | nil => cases hr; exact hI
  | cons e es ih =>
    obtain ⟨s',hs,hr'⟩ := run_cons.mp hr
    obtain ⟨hg,hG'⟩ := (meets_cons hs).mp hG
    exact ih (hstep s e s' hI hg hs) hG' hr'

theorem meets_of_forall {P : ε → Prop} (s : σ) {es : List ε} (h : ∀ e ∈ es, P e) : Meets step (fun _ e => P e) s es := by
  induction es generalizing s with
  | nil => trivial
  | cons e es ih =>
    obtain ⟨he,hes⟩ := List.forall_mem_cons.mp h
    refine ⟨he,?_⟩
    cases step s e with
    | none => trivial
    | some s' => exact ih s' hes

theorem Meets.and {G H : σ → ε → Prop} {s : σ} {es : List ε} (hG : Meets step G s es) (hH : Meets step H s es) :
    Meets step (fun s e => G s e ∧ H s e) s es := by
  induction es generalizing s with
  | nil => trivial
  | cons e es ih =>
    refine ⟨⟨hG.1,hH.1⟩,?_⟩
    have htG := hG.2
    have htH := hH.2
    cases hs : step s e with
    | none => trivial
    | some s' =>
      simp only [hs] at htG htH
      exact ih htG htH

/-- What every step preserves, every run preserves. -/
theorem run_invariant {I : σ → Prop} (hstep : ∀ s e s', I s → step s e = some s' → I s')
    {s t : σ} {es : List ε} (hI : I s) (hr : run step s es = some t) : I t :=
  run_invariant_of_meets (fun s e s' hi _ hs => hstep s e s' hi hs) hI (meets_of_forall s (fun _ _ => trivial)) hr

/-- When every step is possible and preserves the invariant, so is every run. -/
theorem run_total {I : σ → Prop} (hstep : ∀ s e, I s → ∃ s', step s e = some s' ∧ I s') {s : σ} (hI : I s)
    (es : List ε) : ∃ t, run step s es = some t ∧ I t := by
  induction es generalizing s with
  | nil => exact ⟨s,rfl,hI⟩
  | cons e es ih =>
    obtain ⟨s',hs,hI'⟩ := hstep s e hI
    obtain ⟨t,hr,ht⟩ := ih hI'
    exact ⟨t,run_cons.mpr ⟨s',hs,hr⟩,ht⟩

theorem run_append {s t : σ} {es fs : List ε} :
    run step s (es ++ fs) = some t ↔ ∃ s', run step s es = some s' ∧ run step s' fs = some t := by
  induction es generalizing s with
  | nil => simp
  | cons e es ih =>
    simp only [List.cons_append, run_cons, ih]
    constructor
    · rintro ⟨u,hu,s',hs',ht⟩
      exact ⟨s',⟨u,hu,hs'⟩,ht⟩
    · rintro ⟨s',⟨u,hu,hs'⟩,ht⟩
      exact ⟨u,hu,s',hs',ht⟩

theorem meets_append {G : σ → ε → Prop} {s s' : σ} {es fs : List ε} (hr : run step s es = some s') :
    Meets step G s (es ++ fs) ↔ Meets step G s es ∧ Meets step G s' fs := by
  induction es generalizing s with
  | nil =>
    cases hr
    simp [Meets]
  | cons e es ih =>
    obtain ⟨u,hs,hr'⟩ := run_cons.mp hr
    rw [List.cons_append, meets_cons hs, meets_cons hs, ih hr', and_assoc]

/-- The rule for an invariant that also speaks about the events so far. -/
theorem run_history_of_meets {G : σ → ε → Prop} {I : List ε → σ → Prop}
    (hstep : ∀ es s e s', I es s → G s e → step s e = some s' → I (es ++ [e]) s')
    {s t : σ} {es : List ε} (hI : I [] s) (hG : Meets step G s es) (hr : run step s es = some t) : I es t := by
  suffices ∀ before, I before s → I (before ++ es) t from this [] hI
  clear hI
  induction es generalizing s with
  | nil =>
    intro before hI
    cases hr
    rwa [List.append_nil]
  | cons e es ih =>
    intro before hI
    obtain ⟨s',hs,hr'⟩ := run_cons.mp hr
    obtain ⟨hg,hG'⟩ := (meets_cons hs).mp hG
    have hnext := ih hG' hr' (before ++ [e]) (hstep before s e s' hI hg hs)
    rwa [List.append_assoc] at hnext

theorem run_history {I : List ε → σ → Prop} (hstep : ∀ es s e s', I es s → step s e = some s' → I (es ++ [e]) s')
    {s t : σ} {es : List ε} (hI : I [] s) (hr : run step s es = some t) : I es t :=
  run_history_of_meets (fun es s e s' hi _ hs => hstep es s e s' hi hs) hI (meets_of_forall s (fun _ _ => trivial)) hr

theorem outputs_concat {β : Type} (out : σ → ε → List β) {s t : σ} {es : List ε} (hr : run step s es = some t) (e : ε) :
    outputs step out s (es ++ [e]) = outputs step out s es ++ out t e := by
  induction es generalizing s with
  | nil =>
    cases hr
    cases h : step t e <;> simp [outputs, h]
  | cons a es ih =>
    obtain ⟨s',hs,hr'⟩ := run_cons.mp hr
    simp only [List.cons_append, outputs, hs, ih hr', List.append_assoc]

/-- When every step logs some items and folds them into a value, so does the run. -/
theorem run_effect {α β : Type} {P : ε → Prop} {log : σ → List α} {value : σ → β} {act : β → α → β}
    (hstep : ∀ s e s', P e → step s e = some s' →
      ∃ items, log s' = log s ++ items ∧ value s' = items.foldl act (value s))
    {s t : σ} {es : List ε} (hes : ∀ e ∈ es, P e) (hr : run step s es = some t) :
    ∃ items, log t = log s ++ items ∧ value t = items.foldl act (value s) := by
  induction es generalizing s with
  | nil =>
    cases hr
    exact ⟨[],(List.append_nil _).symm,rfl⟩
  | cons e es ih =>
    obtain ⟨s',hs,hr'⟩ := run_cons.mp hr
    obtain ⟨he,hes'⟩ := List.forall_mem_cons.mp hes
    obtain ⟨first,hl,hv⟩ := hstep s e s' he hs
    obtain ⟨rest,hl',hv'⟩ := ih hes' hr'
    exact ⟨first ++ rest,by rw [hl', hl, List.append_assoc],by rw [hv', hv, List.foldl_append]⟩

/-- When every step of a kind uses up some of a measure, no run of such steps is longer
than the measure. -/
theorem run_length_le_of_meets {G : σ → ε → Prop} {μ : σ → Nat}
    (hstep : ∀ s e s', G s e → step s e = some s' → μ s' < μ s) {s t : σ} {es : List ε} (hG : Meets step G s es)
    (hr : run step s es = some t) : es.length+μ t ≤ μ s := by
  induction es generalizing s with
  | nil => cases hr; simp
  | cons e es ih =>
    obtain ⟨s',hs,hr'⟩ := run_cons.mp hr
    obtain ⟨hg,hG'⟩ := (meets_cons hs).mp hG
    have hlt := hstep s e s' hg hs
    have hle := ih hG' hr'
    simp only [List.length_cons]
    omega

theorem run_length_le {μ : σ → Nat} (hstep : ∀ s e s', step s e = some s' → μ s' < μ s) {s t : σ} {es : List ε}
    (hr : run step s es = some t) : es.length+μ t ≤ μ s :=
  run_length_le_of_meets (fun s e s' _ hs => hstep s e s' hs) (meets_of_forall s (fun _ _ => trivial)) hr

/-- When every state short of the goal has a step of a kind that uses up some of a measure, a
run of such steps leads to the goal. -/
theorem run_reaches {I P : σ → Prop} {K : ε → Prop} {μ : σ → Nat}
    (hstep : ∀ s, I s → ¬ P s → ∃ e s', K e ∧ step s e = some s' ∧ I s' ∧ μ s' < μ s) {s : σ} (hI : I s) :
    ∃ es t, (∀ e ∈ es, K e) ∧ run step s es = some t ∧ I t ∧ P t := by
  induction hn : μ s using Nat.strongRecOn generalizing s with
  | ind n ih =>
    by_cases hP : P s
    · exact ⟨[],s,by simp,rfl,hI,hP⟩
    · obtain ⟨e,s',he,hs,hI',hlt⟩ := hstep s hI hP
      obtain ⟨es,t,hes,hr,ht⟩ := ih (μ s') (hn ▸ hlt) hI' rfl
      exact ⟨e::es,t,List.forall_mem_cons.mpr ⟨he,hes⟩,run_cons.mpr ⟨s',hs,hr⟩,ht⟩

/-- A record that a machine keeps, with one more item. -/
theorem forall_mem_concat {α : Type} {P : α → Prop} {l : List α} {a : α} (hl : ∀ x ∈ l, P x) (ha : P a) :
    ∀ x ∈ l ++ [a], P x :=
  List.forall_mem_append.mpr ⟨hl,List.forall_mem_singleton.mpr ha⟩

/-- The same with one item replaced. -/
theorem forall_mem_set {α : Type} {P : α → Prop} {l : List α} {i : Nat} {a : α} (hl : ∀ x ∈ l, P x) (ha : P a) :
    ∀ x ∈ l.set i a, P x := by
  intro x hx
  rcases List.mem_or_eq_of_mem_set hx with hx | rfl
  · exact hl x hx
  · exact ha

theorem getElem?_concat_cases {α : Type} {l : List α} {j : Nat} {a b : α} (h : (l ++ [a])[j]? = some b) :
    l[j]? = some b ∨ j = l.length ∧ b = a := by
  rw [List.getElem?_append] at h
  split at h
  · exact .inl h
  · obtain ⟨hlt,hb⟩ := List.getElem?_eq_some_iff.mp h
    simp only [List.length_singleton] at hlt
    exact .inr ⟨by omega,by simpa using hb.symm⟩

theorem getElem?_set_cases {α : Type} {l : List α} {i j : Nat} {a b : α} (h : (l.set i a)[j]? = some b) :
    j = i ∧ b = a ∨ j ≠ i ∧ l[j]? = some b := by
  rw [List.getElem?_set] at h
  split at h
  · rename_i hij
    simp only [Option.ite_none_right_eq_some, Option.some.injEq] at h
    exact .inl ⟨hij.symm,h.2.symm⟩
  · rename_i hij
    exact .inr ⟨Ne.symm hij,h⟩

/-- An item of a record splits it, and replacing the item leaves the rest. -/
theorem split_of_getElem? {α : Type} {l : List α} {i : Nat} {a : α} (h : l[i]? = some a) :
    ∃ front back, l = front ++ a::back ∧ ∀ b, l.set i b = front ++ b::back := by
  obtain ⟨hlt,rfl⟩ := List.getElem?_eq_some_iff.mp h
  refine ⟨l.take i,l.drop (i+1),?_,fun b => List.set_eq_take_append_cons_drop ▸ if_pos hlt⟩
  rw [List.getElem_cons_drop, List.take_append_drop]

end Nawst.Lib.Machine
