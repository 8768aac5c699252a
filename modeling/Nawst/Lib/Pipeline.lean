import Mathlib.Data.List.Basic

/-! A pipelined connection: requests and answers both arrive in order, so the k-th
answer is the answer to the k-th request, however many are under way. -/
namespace Nawst.Lib

structure Pipeline (α β : Type) where
  sent : List α
  answers : List β
  received : Nat
  deriving DecidableEq

namespace Pipeline

variable {α β : Type}

def empty : Pipeline α β := ⟨[],[],0⟩

def send (p : Pipeline α β) (a : α) : Pipeline α β := { p with sent := p.sent ++ [a] }

def answer (p : Pipeline α β) (b : β) : Pipeline α β := { p with answers := p.answers ++ [b] }

/-- The next answer that has not been handed out yet. -/
def receive (p : Pipeline α β) : Option (β × Pipeline α β) :=
  (p.answers[p.received]?).map (fun b => (b,{ p with received := p.received+1 }))

/-- Requests that have been answered, with their answers. -/
def pairs (p : Pipeline α β) : List (α × β) := p.sent.zip p.answers

/-- What both ends did so far is the beginning of what they did later. -/
structure Extends (p q : Pipeline α β) : Prop where
  sent : p.sent <+: q.sent
  answers : p.answers <+: q.answers

theorem Extends.refl (p : Pipeline α β) : Extends p p := ⟨List.prefix_rfl,List.prefix_rfl⟩

theorem extends_send (p : Pipeline α β) (a : α) : Extends p (p.send a) :=
  ⟨List.prefix_append _ _,List.prefix_rfl⟩

theorem extends_answer (p : Pipeline α β) (b : β) : Extends p (p.answer b) :=
  ⟨List.prefix_rfl,List.prefix_append _ _⟩

theorem receive_eq_some {p q : Pipeline α β} {b : β} :
    p.receive = some (b,q) ↔ p.answers[p.received]? = some b ∧ q = { p with received := p.received+1 } := by
  simp only [receive, Option.map_eq_some_iff, Prod.mk.injEq]
  constructor
  · rintro ⟨b',hb,rfl,rfl⟩
    exact ⟨hb,rfl⟩
  · rintro ⟨hb,rfl⟩
    exact ⟨b,hb,rfl,rfl⟩

theorem mem_pairs {p : Pipeline α β} {n : Nat} {a : α} {b : β} (ha : p.sent[n]? = some a)
    (hb : p.answers[n]? = some b) : (a,b) ∈ p.pairs :=
  List.mem_iff_getElem?.mpr ⟨n,List.getElem?_zip_eq_some.mpr ⟨ha,hb⟩⟩

private theorem getElem?_of_initial {γ : Type} {l m : List γ} (h : l <+: m) {n : Nat} {c : γ}
    (hc : l[n]? = some c) : m[n]? = some c := by
  obtain ⟨hlt,rfl⟩ := List.getElem?_eq_some_iff.mp hc
  exact List.prefix_iff_getElem?.mp h n hlt

theorem Extends.pairs_subset {p q : Pipeline α β} (h : Extends p q) : p.pairs ⊆ q.pairs := by
  intro x hx
  obtain ⟨n,hn⟩ := List.mem_iff_getElem?.mp hx
  obtain ⟨ha,hb⟩ := List.getElem?_zip_eq_some.mp hn
  exact mem_pairs (getElem?_of_initial h.sent ha) (getElem?_of_initial h.answers hb)

theorem Extends.answers_getElem? {p q : Pipeline α β} (h : Extends p q) {n : Nat} {b : β}
    (hb : p.answers[n]? = some b) : q.answers[n]? = some b := getElem?_of_initial h.answers hb

section Connections

/-- Every connection is still there and has only grown. -/
def Grows (ps qs : List (Pipeline α β)) : Prop :=
  ∀ (i : Nat) (p : Pipeline α β), ps[i]? = some p → ∃ q : Pipeline α β, qs[i]? = some q ∧ Extends p q

theorem Grows.refl (ps : List (Pipeline α β)) : Grows ps ps := fun _ p hp => ⟨p,hp,.refl p⟩

theorem grows_append (ps qs : List (Pipeline α β)) : Grows ps (ps ++ qs) := by
  intro i p hp
  obtain ⟨hlt,_⟩ := List.getElem?_eq_some_iff.mp hp
  exact ⟨p,by rw [List.getElem?_append_left hlt, hp],.refl p⟩

theorem grows_set {ps : List (Pipeline α β)} {i : Nat} {p q : Pipeline α β} (hp : ps[i]? = some p)
    (h : Extends p q) : Grows ps (ps.set i q) := by
  obtain ⟨hlt,_⟩ := List.getElem?_eq_some_iff.mp hp
  intro j r hr
  by_cases hij : i = j
  · subst hij
    obtain rfl : p = r := Option.some.inj (hp.symm.trans hr)
    exact ⟨q,List.getElem?_set_self hlt,h⟩
  · exact ⟨r,by rw [List.getElem?_set_ne hij, hr],.refl r⟩

end Connections

end Pipeline
end Nawst.Lib
