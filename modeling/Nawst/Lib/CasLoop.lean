import Mathlib.Data.List.Chain
import Mathlib.Data.List.Nodup
import Nawst.Lib.Machine

/-! Callers that retry a compare-and-swap on one shared value. Whatever their interleaving,
the successful swaps update the value one after the other, once for each call. -/
namespace Nawst.Lib.CasLoop

variable {α ι : Type}

/-- Where a call is: before its load, with what it loaded, with what it wants to put in its
place, and with what it has put there. -/
inductive Caller (α : Type) where
  | calling
  | loaded (cur : α)
  | computed (cur cand : α)
  | swapped (a : α)
  | returned (a : α)
  deriving DecidableEq

/-- What the call has put in place. -/
def Caller.result : Caller α → Option α
  | .swapped a | .returned a => some a
  | .calling | .loaded _ | .computed _ _ => none

/-- The shared value and the calls, in the order of their start. The successful swaps are
recorded with their callers. -/
structure Shared (α : Type) where
  value : α
  callers : List (Caller α)
  swaps : List (Nat × α)
  deriving DecidableEq

def init (a : α) : Shared α := ⟨a,[],[]⟩

/-- What a call has put in place so far, by its number. -/
def Shared.result (s : Shared α) (i : Nat) : Option α := s.callers[i]?.bind Caller.result

inductive Event (ι : Type) where
  | call
  | load (i : Nat)
  | compute (i : Nat) (x : ι)
  | swap (i : Nat)
  | leave (i : Nat)
  deriving DecidableEq

/-- What the caller computes with, besides the value it has loaded. -/
def Event.input : Event ι → Option ι
  | .compute _ x => some x
  | _ => none

def Event.isCall : Event ι → Bool
  | .call => true
  | _ => false

section Step
variable [DecidableEq α] (next : α → ι → α)

/-- One access to the shared value, or a step of the caller's own. A swap that fails sends the
caller back to its load. -/
def step (s : Shared α) : Event ι → Option (Shared α)
  | .call => some { s with callers := s.callers ++ [.calling] }
  | .load i => match s.callers[i]? with
    | some .calling => some { s with callers := s.callers.set i (.loaded s.value) }
    | _ => none
  | .compute i x => match s.callers[i]? with
    | some (.loaded cur) => some { s with callers := s.callers.set i (.computed cur (next cur x)) }
    | _ => none
  | .swap i => match s.callers[i]? with
    | some (.computed cur cand) =>
      if s.value = cur then some ⟨cand,s.callers.set i (.swapped cand),s.swaps ++ [(i,cand)]⟩
      else some { s with callers := s.callers.set i .calling }
    | _ => none
  | .leave i => match s.callers[i]? with
    | some (.swapped a) => some { s with callers := s.callers.set i (.returned a) }
    | _ => none

end Step

/-- A candidate was computed from what was loaded, with an input of a kind. -/
def Caller.Computes (next : α → ι → α) (P : ι → Prop) : Caller α → Prop
  | .computed cur cand => ∃ x, P x ∧ cand = next cur x
  | _ => True

/-- Everything a step can do: a call starts, a caller goes on by itself, or a caller replaces
the value that it has loaded. -/
inductive Fires (next : α → ι → α) (s : Shared α) : Event ι → Shared α → Prop where
  | call : Fires next s .call { s with callers := s.callers ++ [.calling] }
  | move {e : Event ι} {i : Nat} {c c' : Caller α} (hc : s.callers[i]? = some c) (hresult : c'.result = c.result)
      (hcomputes : c'.Computes next (fun x => e.input = some x)) (he : e.isCall = false) :
      Fires next s e { s with callers := s.callers.set i c' }
  | swap {i : Nat} {cand : α} (hc : s.callers[i]? = some (.computed s.value cand)) :
      Fires next s (.swap i) ⟨cand,s.callers.set i (.swapped cand),s.swaps ++ [(i,cand)]⟩

theorem step_fires [DecidableEq α] {next : α → ι → α} {s s' : Shared α} {e : Event ι} (hs : step next s e = some s') :
    Fires next s e s' := by
  cases e with
  | call =>
    cases hs
    exact .call
  | load i =>
    simp only [step] at hs
    split at hs
    · rename_i hc
      cases hs
      exact .move hc rfl trivial rfl
    · cases hs
  | compute i x =>
    simp only [step] at hs
    split at hs
    · rename_i hc
      cases hs
      exact .move hc rfl ⟨x,rfl,rfl⟩ rfl
    · cases hs
  | swap i =>
    simp only [step] at hs
    split at hs
    · rename_i hc
      split at hs
      · rename_i hcur
        cases hs
        exact .swap (hcur ▸ hc)
      · cases hs
        exact .move hc rfl trivial rfl
    · cases hs
  | leave i =>
    simp only [step] at hs
    split at hs
    · rename_i hc
      cases hs
      exact .move hc rfl trivial rfl
    · cases hs

section Linear
variable {next : α → ι → α} {P Q : ι → Prop} {a : α} {s : Shared α}

theorem Caller.Computes.mono {c : Caller α} (h : c.Computes next P) (hPQ : ∀ x, P x → Q x) : c.Computes next Q := by
  cases c with
  | computed cur cand =>
    obtain ⟨x,hx,hcand⟩ := h
    exact ⟨x,hPQ x hx,hcand⟩
  | _ => trivial

/-- The shared value has been updated with inputs of a kind, one swap at a time, by each call
at most once and with what that call has for its result. -/
structure Linear (next : α → ι → α) (P : ι → Prop) (a : α) (s : Shared α) : Prop where
  computes : ∀ c ∈ s.callers, c.Computes next P
  updates : ∃ xs : List ι, (∀ x ∈ xs, P x) ∧ s.value = xs.foldl next a ∧ a::s.swaps.map Prod.snd = xs.scanl next a
  results : ∀ i b, (i,b) ∈ s.swaps ↔ s.result i = some b
  once : (s.swaps.map Prod.fst).Nodup

theorem init_linear (next : α → ι → α) (P : ι → Prop) (a : α) : Linear next P a (init a) where
  computes := by simp [init]
  updates := ⟨[],by simp,rfl,by simp [init]⟩
  results := by simp [init, Shared.result]
  once := List.nodup_nil

theorem result_call (s : Shared α) (i : Nat) :
    Shared.result { s with callers := s.callers ++ [.calling] } i = s.result i := by
  unfold Shared.result
  rcases Nat.lt_trichotomy i s.callers.length with h | h | h
  · rw [List.getElem?_append_left h]
  · simp [h, Caller.result]
  · have hlength : (s.callers ++ [Caller.calling]).length ≤ i := by simpa using Nat.succ_le_of_lt h
    rw [List.getElem?_eq_none hlength, List.getElem?_eq_none (Nat.le_of_lt h)]

theorem result_set {i : Nat} {c : Caller α} (hc : s.callers[i]? = some c) (c' : Caller α) (b : α)
    (swaps : List (Nat × α)) (j : Nat) :
    Shared.result ⟨b,s.callers.set i c',swaps⟩ j = if j = i then c'.result else s.result j := by
  unfold Shared.result
  obtain ⟨hi,_⟩ := List.getElem?_eq_some_iff.mp hc
  by_cases hj : j = i
  · simp [hj, hi]
  · simp [hj, Ne.symm hj]

theorem Linear.swap (h : Linear next P a s) {i : Nat} {cand : α} (hc : s.callers[i]? = some (.computed s.value cand)) :
    Linear next P a ⟨cand,s.callers.set i (.swapped cand),s.swaps ++ [(i,cand)]⟩ := by
  have hnone : s.result i = none := by simp [Shared.result, hc, Caller.result]
  have hfresh : ∀ b, (i,b) ∉ s.swaps := fun b hb => by simp [(h.results i b).mp hb] at hnone
  obtain ⟨x,hx,hcand⟩ := h.computes _ (List.mem_of_getElem? hc)
  obtain ⟨xs,hxs,hvalue,htrace⟩ := h.updates
  refine ⟨Machine.forall_mem_set h.computes trivial,⟨xs ++ [x],Machine.forall_mem_concat hxs hx,?_,?_⟩,?_,?_⟩
  · rw [List.foldl_append, ← hvalue]
    exact hcand
  · rw [List.scanl_append, ← htrace, ← hvalue]
    simp [hcand]
  · intro j b
    rw [result_set hc]
    by_cases hj : j = i
    · subst hj
      simp [hfresh, Caller.result, eq_comm]
    · simp [hj, h.results]
  · rw [List.map_append]
    refine List.nodup_append.mpr ⟨h.once,List.nodup_singleton _,fun j hj k hk hjk => ?_⟩
    obtain ⟨⟨_,b⟩,hb,rfl⟩ := List.mem_map.mp hj
    obtain rfl := List.mem_singleton.mp hk
    exact hfresh b (hjk ▸ hb)

theorem step_linear [DecidableEq α] {s' : Shared α} {e : Event ι} (h : Linear next P a s) (he : ∀ x ∈ e.input, P x)
    (hs : step next s e = some s') : Linear next P a s' := by
  cases step_fires hs with
  | call =>
    refine ⟨Machine.forall_mem_concat h.computes trivial,h.updates,fun i b => ?_,h.once⟩
    rw [result_call]
    exact h.results i b
  | @move _ i c c' hc hresult hcomputes _ =>
    refine ⟨Machine.forall_mem_set h.computes (hcomputes.mono he),h.updates,fun j b => ?_,h.once⟩
    have hsame : s.result i = c.result := by simp [Shared.result, hc]
    rw [result_set hc, hresult, ← hsame]
    split
    · rename_i hj
      rw [hj]
      exact h.results i b
    · exact h.results j b
  | swap hc => exact h.swap hc

theorem run_linear [DecidableEq α] {es : List (Event ι)} (hes : ∀ e ∈ es, ∀ x ∈ e.input, P x)
    (hr : Machine.run (step next) (init a) es = some s) : Linear next P a s :=
  Machine.run_invariant_of_meets (G := fun _ e => ∀ x ∈ e.input, P x) (fun _ _ _ hi he hs => step_linear hi he hs)
    (init_linear next P a) (Machine.meets_of_forall _ hes) hr

/-- No more swaps than calls. -/
theorem Linear.swaps_length_le (h : Linear next P a s) : s.swaps.length ≤ s.callers.length := by
  have hsub : s.swaps.map Prod.fst ⊆ List.range s.callers.length := by
    intro i hi
    obtain ⟨⟨_,b⟩,hb,rfl⟩ := List.mem_map.mp hi
    obtain ⟨c,hc,_⟩ := Option.bind_eq_some_iff.mp ((h.results _ b).mp hb)
    exact List.mem_range.mpr (List.getElem?_eq_some_iff.mp hc).1
  simpa using h.once.length_le_of_subset hsub

end Linear

section Run
variable [DecidableEq α] {next : α → ι → α} {s t : Shared α} {es : List (Event ι)}

theorem step_callers {s' : Shared α} {e : Event ι} (hs : step next s e = some s') :
    s'.callers.length = s.callers.length+if e.isCall then 1 else 0 := by
  cases step_fires hs with
  | call => simp [Event.isCall]
  | move _ _ _ he => simp [he]
  | swap _ => simp [Event.isCall]

theorem run_callers {a : α} (hr : Machine.run (step next) (init a) es = some s) :
    s.callers.length = es.countP Event.isCall := by
  refine Machine.run_history (I := fun es s => s.callers.length = es.countP Event.isCall) (fun es s e s' hi hs => ?_) rfl hr
  rw [step_callers hs, hi, List.countP_append, List.countP_singleton]

/-- Successful swaps are never undone. -/
theorem run_swaps (hr : Machine.run (step next) s es = some t) : s.swaps <+: t.swaps := by
  refine Machine.run_invariant (I := fun t => s.swaps <+: t.swaps) (fun u e u' hi hs => ?_) List.prefix_rfl hr
  cases step_fires hs with
  | call => exact hi
  | move _ _ _ _ => exact hi
  | swap _ => exact hi.trans (List.prefix_append _ _)

end Run

section Order
variable {next : α → ι → α} {P : ι → Prop} {r : α → α → Prop} {I : Nat → α → Prop} {N : Nat}
variable (hnext : ∀ n b x, n < N → I n b → P x → r b (next b x) ∧ I (n+1) (next b x))
include hnext

/-- Updates that go up, as long as there are not too many of them. -/
theorem isChain_scanl {n : Nat} {b : α} (hI : I n b) {xs : List ι} (hxs : ∀ x ∈ xs, P x) (hN : n+xs.length ≤ N) :
    (xs.scanl next b).IsChain r := by
  induction xs generalizing n b with
  | nil => simp
  | cons x xs ih =>
    obtain ⟨hx,hxs⟩ := List.forall_mem_cons.mp hxs
    rw [List.length_cons] at hN
    obtain ⟨hup,hI'⟩ := hnext n b x (by omega) hI hx
    rw [List.scanl_cons, List.isChain_cons, List.head?_scanl]
    refine ⟨fun c hc => ?_,ih hI' hxs (by omega)⟩
    cases hc
    exact hup

theorem Linear.increasing [Trans r r r] {a : α} {s : Shared α} (h : Linear next P a s) (hI : I 0 a) (hN : s.callers.length ≤ N) :
    (a::s.swaps.map Prod.snd).Pairwise r := by
  obtain ⟨xs,hxs,_,htrace⟩ := h.updates
  have hlength := congrArg List.length htrace
  have hle := h.swaps_length_le
  simp only [List.length_cons, List.length_map, List.length_scanl] at hlength
  rw [htrace, ← List.isChain_iff_pairwise]
  exact isChain_scanl hnext hI hxs (by omega)

end Order

section Results
variable {next : α → ι → α} {P : ι → Prop} {r : α → α → Prop} {a b c : α} {s t : Shared α} {i j : Nat}

/-- Different calls have different results. -/
theorem Linear.result_ne (h : Linear next P a s) (hirrefl : ∀ b, ¬ r b b) (hup : (s.swaps.map Prod.snd).Pairwise r)
    (hij : i ≠ j) (hi : s.result i = some b) (hj : s.result j = some c) : b ≠ c := by
  rintro rfl
  have hne : ∀ b c, r b c → b ≠ c := fun b c hr he => hirrefl c (he ▸ hr)
  have hnodup : (s.swaps.map Prod.snd).Nodup := hup.imp (hne _ _)
  have hsame := List.inj_on_of_nodup_map hnodup ((h.results i b).mpr hi) ((h.results j b).mpr hj) rfl
  exact hij (congrArg Prod.fst hsame)

/-- A call that had no result when another had one gets a later one. -/
theorem Linear.result_later (hs : Linear next P a s) (ht : Linear next P a t) (hswaps : s.swaps <+: t.swaps)
    (hup : (t.swaps.map Prod.snd).Pairwise r) (hi : s.result i = some b) (hnone : s.result j = none)
    (hj : t.result j = some c) : r b c := by
  obtain ⟨rest,hrest⟩ := hswaps
  have hmem := (ht.results j c).mpr hj
  rw [← hrest] at hmem hup
  have hnew : (j,c) ∈ rest := by
    refine (List.mem_append.mp hmem).resolve_left (fun hold => ?_)
    rw [(hs.results j c).mp hold] at hnone
    cases hnone
  rw [List.map_append, List.pairwise_append] at hup
  exact hup.2.2 b (List.mem_map_of_mem ((hs.results i b).mpr hi)) c (List.mem_map_of_mem hnew)

end Results

end Nawst.Lib.CasLoop
