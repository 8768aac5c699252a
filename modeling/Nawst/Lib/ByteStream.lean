import Mathlib.Data.List.Basic
import Mathlib.Data.Nat.ModEq
import Mathlib.Tactic.Ring

/-! Byte streams as the standard readers see them: single bytes, exact-length
reads, big-endian words and base-128 varints. A parser recognises a byte string
exactly when it reads it back before any continuation and fails on every cut. -/
namespace Nawst.Lib.ByteStream

/-- Ways a read can stop. The last one is a run-time panic, not an error value. -/
inductive Fault where
  | eof | unexpectedEOF | overflow | lenOutOfRange
  deriving DecidableEq, Repr

/-- The two faults that report a stream ending too early. -/
def Fault.Truncated : Fault → Prop
  | .eof | .unexpectedEOF => True
  | .overflow | .lenOutOfRange => False

instance : DecidablePred Fault.Truncated
  | .eof | .unexpectedEOF => isTrue trivial
  | .overflow | .lenOutOfRange => isFalse id

abbrev Parser (α : Type) := StateT (List UInt8) (Except Fault) α

def readByte : Parser UInt8
  | [] => .error .eof
  | b::bs => .ok (b,bs)

/-- Reading into a buffer of n bytes. Nothing at all is a plain end of file; a
partial fill is reported differently. -/
def readFull (n : Nat) : Parser (List UInt8) := fun bs =>
  if n ≤ bs.length then .ok (bs.take n,bs.drop n)
  else if bs = [] then .error .eof else .error .unexpectedEOF

def maxVarintLen64 : Nat := 10

/-- The varint reading loop at byte i with accumulator x; the payloads occupy
disjoint bits, so the bitwise accumulation is a sum. -/
def readUvarintFrom (i x : Nat) : Parser Nat
  | [] => .error (if i = 0 then .eof else .unexpectedEOF)
  | b::bs =>
    if b.toNat < 128 then
      if i = maxVarintLen64-1 ∧ 1 < b.toNat then .error .overflow else .ok (x+b.toNat*128^i,bs)
    else if i = maxVarintLen64-1 then .error .overflow
    else readUvarintFrom (i+1) (x+b.toNat%128*128^i) bs

def readUvarint : Parser Nat := readUvarintFrom 0 0

/-- Varint bytes with at most fuel continuation bytes; nine suffice for 64 bits. -/
def putUvarintFrom : Nat → Nat → List UInt8
  | 0, x => [UInt8.ofNat x]
  | fuel+1, x => if x < 128 then [UInt8.ofNat x]
      else UInt8.ofNat (x%128+128) :: putUvarintFrom fuel (x/128)

def putUvarint (x : Nat) : List UInt8 := putUvarintFrom (maxVarintLen64-1) x

/-- The n low-order bytes of a number, most significant first. -/
def putBigEndian : Nat → Nat → List UInt8
  | 0, _ => []
  | n+1, x => UInt8.ofNat (x/256^n) :: putBigEndian n x

def bigEndian (bs : List UInt8) : Nat := bs.foldl (fun acc b => acc*256+b.toNat) 0

@[simp] theorem putBigEndian_length (n x : Nat) : (putBigEndian n x).length = n := by
  induction n with
  | zero => rfl
  | succ n ih => simp [putBigEndian, ih]

private theorem foldl_bigEndian (n x acc : Nat) :
    (putBigEndian n x).foldl (fun acc b => acc*256+b.toNat) acc = acc*256^n+x%256^n := by
  induction n generalizing acc with
  | zero => simp [putBigEndian, Nat.mod_one]
  | succ n ih =>
    have hb : (UInt8.ofNat (x/256^n)).toNat = x/256^n%256 := UInt8.toNat_ofNat'
    have hm : x%256^(n+1) = 256^n*(x/256^n%256)+x%256^n := by
      rw [pow_succ, Nat.mod_mul, Nat.add_comm]
    rw [putBigEndian, List.foldl_cons, ih, hb, hm, pow_succ]
    ring

theorem bigEndian_putBigEndian (n x : Nat) : bigEndian (putBigEndian n x) = x%256^n := by
  simpa [bigEndian] using foldl_bigEndian n x 0

theorem putUvarintFrom_length (fuel x : Nat) :
    1 ≤ (putUvarintFrom fuel x).length ∧ (putUvarintFrom fuel x).length ≤ fuel+1 := by
  induction fuel generalizing x with
  | zero => simp [putUvarintFrom]
  | succ fuel ih =>
    unfold putUvarintFrom
    split
    · simp
    · have := ih (x/128)
      simp only [List.length_cons]
      omega

theorem putUvarint_length (x : Nat) : 1 ≤ (putUvarint x).length ∧ (putUvarint x).length ≤ maxVarintLen64 :=
  putUvarintFrom_length (maxVarintLen64-1) x

/-- The parser reads bs back as a before any continuation, and stops with a
truncation fault on every proper prefix. -/
structure Exact {α : Type} (p : Parser α) (bs : List UInt8) (a : α) : Prop where
  whole : ∀ rest, p (bs ++ rest) = .ok (a,rest)
  cut : ∀ q, q <+: bs → q ≠ bs → ∃ f, p q = .error f ∧ f.Truncated

variable {α β : Type}

theorem Exact.pure (a : α) : Exact (Pure.pure a : Parser α) [] a where
  whole _ := rfl
  cut _ hq hne := absurd (List.prefix_nil.mp hq) hne

private theorem prefix_append_cases {q bs cs : List UInt8} (h : q <+: bs ++ cs) (hne : q ≠ bs ++ cs) :
    (q <+: bs ∧ q ≠ bs) ∨ ∃ r, q = bs ++ r ∧ r <+: cs ∧ r ≠ cs := by
  rcases List.prefix_or_prefix_of_prefix h (List.prefix_append bs cs) with hq | ⟨r,rfl⟩
  · by_cases he : q = bs
    · subst he
      refine .inr ⟨[],by simp, List.nil_prefix,?_⟩
      rintro rfl
      simp at hne
    · exact .inl ⟨hq,he⟩
  · refine .inr ⟨r,rfl,(List.prefix_append_right_inj bs).mp h,?_⟩
    rintro rfl
    exact hne rfl

/-- Exact parsers compose in sequence, with the cut falling in either part. -/
theorem Exact.bind {p : Parser α} {k : α → Parser β} {bs cs : List UInt8} {a : α} {b : β}
    (hp : Exact p bs a) (hk : Exact (k a) cs b) : Exact (p >>= k) (bs ++ cs) b where
  whole rest := by
    change (p (bs ++ cs ++ rest)).bind (fun out => k out.1 out.2) = _
    rw [List.append_assoc, hp.whole]
    exact hk.whole rest
  cut q hq hne := by
    change ∃ f, (p q).bind (fun out => k out.1 out.2) = .error f ∧ f.Truncated
    rcases prefix_append_cases hq hne with ⟨hb,hn⟩ | ⟨r,rfl,hr,hn⟩
    · obtain ⟨f,he,hf⟩ := hp.cut q hb hn
      exact ⟨f,by rw [he]; rfl,hf⟩
    · rw [hp.whole r]
      exact hk.cut r hr hn

theorem Exact.bind_pure {p : Parser α} {bs : List UInt8} {a : α} (hp : Exact p bs a) (f : α → β) :
    Exact (p >>= fun a => Pure.pure (f a)) bs (f a) := by
  simpa using hp.bind (k := fun a => Pure.pure (f a)) (Exact.pure (f a))

private theorem prefix_singleton {q : List UInt8} {b : UInt8} (hq : q <+: [b]) (hne : q ≠ [b]) : q = [] := by
  rcases List.prefix_cons_iff.mp hq with rfl | ⟨r,rfl,hr⟩
  · rfl
  · exact absurd (by rw [List.prefix_nil.mp hr]) hne

theorem Exact.readByte (b : UInt8) : Exact readByte [b] b where
  whole _ := rfl
  cut q hq hne := by
    rw [prefix_singleton hq hne]
    exact ⟨.eof,rfl,trivial⟩

theorem Exact.readFull (bs : List UInt8) : Exact (readFull bs.length) bs bs where
  whole rest := by simp [ByteStream.readFull]
  cut q hq hne := by
    have hl : ¬ bs.length ≤ q.length := fun hle => hne (hq.eq_of_length (Nat.le_antisymm hq.length_le hle))
    unfold ByteStream.readFull
    rw [if_neg hl]
    split
    · exact ⟨.eof,rfl,trivial⟩
    · exact ⟨.unexpectedEOF,rfl,trivial⟩

private theorem cut_nil (i acc : Nat) : ∃ f, readUvarintFrom i acc [] = .error f ∧ f.Truncated := by
  by_cases h : i = 0
  · exact ⟨.eof,by simp [readUvarintFrom, h],trivial⟩
  · exact ⟨.unexpectedEOF,by simp [readUvarintFrom, h],trivial⟩

private theorem continuation_toNat (x : Nat) : (UInt8.ofNat (x%128+128)).toNat = x%128+128 := by
  rw [UInt8.toNat_ofNat']
  omega

private theorem cut_uvarintFrom (i fuel x acc : Nat) (hi : i+fuel = maxVarintLen64-1)
    (q : List UInt8) (hq : q <+: putUvarintFrom fuel x) (hne : q ≠ putUvarintFrom fuel x) :
    ∃ f, readUvarintFrom i acc q = .error f ∧ f.Truncated := by
  induction fuel generalizing i x acc q with
  | zero =>
    rw [prefix_singleton hq hne]
    exact cut_nil i acc
  | succ fuel ih =>
    unfold putUvarintFrom at hq hne
    split at hq
    · rename_i hx
      rw [if_pos hx] at hne
      rw [prefix_singleton hq hne]
      exact cut_nil i acc
    · rename_i hx
      rw [if_neg hx] at hne
      rcases List.prefix_cons_iff.mp hq with rfl | ⟨r,rfl,hr⟩
      · exact cut_nil i acc
      · have hb := continuation_toNat x
        rw [readUvarintFrom, if_neg (by omega), if_neg (by omega)]
        exact ih (i+1) (x/128) _ (by omega) r hr (fun h => hne (by rw [h]))

private theorem whole_uvarintFrom (i fuel x acc : Nat) (hi : i+fuel = maxVarintLen64-1)
    (hx : x < 2^(7*fuel+1)) (rest : List UInt8) :
    readUvarintFrom i acc (putUvarintFrom fuel x ++ rest) = .ok (acc+x*128^i,rest) := by
  have last (i x acc : Nat) (hx : x < 128) (hi : i = maxVarintLen64-1 → x ≤ 1) :
      readUvarintFrom i acc (UInt8.ofNat x :: rest) = .ok (acc+x*128^i,rest) := by
    have hb : (UInt8.ofNat x).toNat = x := by
      rw [UInt8.toNat_ofNat']
      omega
    rw [readUvarintFrom, hb, if_pos hx, if_neg (by omega)]
  induction fuel generalizing i x acc with
  | zero => exact last i x acc (by omega) (by omega)
  | succ fuel ih =>
    unfold putUvarintFrom
    split
    · rename_i hs
      exact last i x acc hs (by omega)
    · have hb := continuation_toNat x
      have hd : x/128 < 2^(7*fuel+1) := by
        rw [Nat.div_lt_iff_lt_mul (by decide)]
        calc x < 2^(7*(fuel+1)+1) := hx
          _ = 2^(7*fuel+1)*128 := by ring
      rw [List.cons_append, readUvarintFrom, if_neg (by omega), if_neg (by omega), ih (i+1) (x/128) _ (by omega) hd]
      have hp : x/128*128^(i+1)+x%128*128^i = x*128^i := by
        conv_rhs => rw [← Nat.div_add_mod x 128]
        ring
      have hmod : (x%128+128)%128 = x%128 := by omega
      rw [hb, hmod, Nat.add_assoc, Nat.add_comm (x%128*128^i), hp]

/-- Every 64-bit number is read back from its varint, before any continuation. -/
theorem Exact.readUvarint (x : Nat) (hx : x < 2^64) : Exact readUvarint (putUvarint x) x where
  whole rest := by
    simpa [ByteStream.readUvarint, putUvarint] using
      whole_uvarintFrom 0 (maxVarintLen64-1) x 0 rfl hx rest
  cut q hq hne := cut_uvarintFrom 0 (maxVarintLen64-1) x 0 rfl q hq hne

section Accepts

theorem bind_ok_iff {p : Parser α} {k : α → Parser β} {bs rest : List UInt8} {b : β} :
    (p >>= k) bs = .ok (b,rest) ↔ ∃ a mid, p bs = .ok (a,mid) ∧ k a mid = .ok (b,rest) := by
  change (p bs).bind (fun out => k out.1 out.2) = _ ↔ _
  cases p bs with
  | error f => simp [Except.bind]
  | ok out => simp [Except.bind, Prod.ext_iff, and_assoc]

theorem bind_error_iff {p : Parser α} {k : α → Parser β} {bs : List UInt8} {f : Fault} :
    (p >>= k) bs = .error f ↔ p bs = .error f ∨ ∃ a mid, p bs = .ok (a,mid) ∧ k a mid = .error f := by
  change (p bs).bind (fun out => k out.1 out.2) = _ ↔ _
  cases p bs with
  | error g => simp [Except.bind]
  | ok out => simp [Except.bind, Prod.ext_iff, and_assoc]

theorem readFull_ok_iff {n : Nat} {bs data rest : List UInt8} :
    readFull n bs = .ok (data,rest) ↔ bs = data ++ rest ∧ data.length = n := by
  unfold readFull
  split
  · rename_i h
    simp only [Except.ok.injEq, Prod.mk.injEq]
    constructor
    · rintro ⟨rfl,rfl⟩
      exact ⟨(List.take_append_drop n bs).symm,by simpa using h⟩
    · rintro ⟨rfl,rfl⟩
      simp
  · rename_i h
    have hshort : ¬ (bs = data ++ rest ∧ data.length = n) := by
      rintro ⟨rfl,rfl⟩
      simp at h
    split <;> simpa using hshort

/-- Bytes with the continuation bit, and a last one without it. -/
inductive Digits : List UInt8 → Prop where
  | last (b : UInt8) (hb : b.toNat < 128) : Digits [b]
  | more (b : UInt8) {bs : List UInt8} (hb : 128 ≤ b.toNat) (h : Digits bs) : Digits (b::bs)

/-- The number that base-128 digits stand for, least significant first. -/
def digitsValue : List UInt8 → Nat
  | [] => 0
  | b::bs => b.toNat%128+128*digitsValue bs

/-- A varint of at most ten bytes for a 64-bit number, not necessarily the shortest one. -/
structure IsUvarint (bs : List UInt8) (n : Nat) : Prop where
  digits : Digits bs
  short : bs.length ≤ maxVarintLen64
  value : digitsValue bs = n
  fits : n < 2^64

private theorem Digits.length_pos {bs : List UInt8} (h : Digits bs) : 0 < bs.length := by
  cases h <;> simp

private theorem exists_digits_cons {P : List UInt8 → Prop} {b : UInt8} {bs rest : List UInt8} :
    (∃ u, b::bs = u ++ rest ∧ Digits u ∧ P u) ↔
      (b.toNat < 128 ∧ bs = rest ∧ P [b]) ∨ (128 ≤ b.toNat ∧ ∃ u, bs = u ++ rest ∧ Digits u ∧ P (b::u)) := by
  constructor
  · rintro ⟨u,hu,hd,hp⟩
    cases hd with
    | last c hc =>
      obtain ⟨rfl,rfl⟩ := List.cons.inj hu
      exact .inl ⟨hc,rfl,hp⟩
    | more c hc hd =>
      obtain ⟨rfl,htail⟩ := List.cons.inj hu
      exact .inr ⟨hc,_,htail,hd,hp⟩
  · rintro (⟨hb,rfl,hp⟩ | ⟨hb,u,rfl,hd,hp⟩)
    · exact ⟨[b],rfl,.last b hb,hp⟩
    · exact ⟨b::u,rfl,.more b hb hd,hp⟩

/-- The tenth byte may only add the highest bit. -/
private theorem last_digit_lt {i b : Nat} (hi : i ≤ 9) (hb : b < 128) : b < 2^(64-7*i) ↔ ¬ (i = 9 ∧ 1 < b) := by
  by_cases h9 : i = 9
  · have hpow : 2^(64-7*i) = 2 := by
      rw [h9]
      rfl
    omega
  · have hpow : 2^8 ≤ 2^(64-7*i) := Nat.pow_le_pow_right (by decide) (by omega)
    omega

private theorem more_digits_lt {i d v : Nat} (hi : i < 9) (hd : d < 128) : d+128*v < 2^(64-7*i) ↔ v < 2^(64-7*(i+1)) := by
  have hpow : 2^(64-7*i) = 128*2^(64-7*(i+1)) := by
    rw [show 64-7*i = 7+(64-7*(i+1)) by omega, pow_add]
    rfl
  omega

private theorem readUvarintFrom_ok_iff {i : Nat} (hi : i ≤ 9) {x n : Nat} {bs rest : List UInt8} :
    readUvarintFrom i x bs = .ok (n,rest) ↔
      ∃ u, bs = u ++ rest ∧ Digits u ∧ i+u.length ≤ 10 ∧ digitsValue u < 2^(64-7*i) ∧ n = x+digitsValue u*128^i := by
  induction bs generalizing i x with
  | nil =>
    refine iff_of_false (by simp [readUvarintFrom]) ?_
    rintro ⟨u,hu,hd,-⟩
    obtain ⟨rfl,-⟩ := List.append_eq_nil_iff.mp hu.symm
    cases hd
  | cons b bs ih =>
    rw [exists_digits_cons]
    unfold readUvarintFrom maxVarintLen64
    by_cases hb : b.toNat < 128
    · have hvalue : digitsValue [b] = b.toNat := by simp [digitsValue, Nat.mod_eq_of_lt hb]
      simp only [hb, if_true, hvalue, last_digit_lt hi hb, Nat.not_le.mpr hb, false_and, or_false, true_and]
      split
      · rename_i hover
        exact iff_of_false (fun h => by cases h) (fun h => h.2.2.1 hover)
      · rename_i hfits
        have hlength : i+[b].length ≤ 10 := Nat.succ_le_succ hi
        rw [Except.ok.injEq, Prod.mk.injEq]
        exact ⟨fun ⟨hn,hrest⟩ => ⟨hrest,hlength,hfits,hn.symm⟩,fun ⟨hrest,_,_,hn⟩ => ⟨hn.symm,hrest⟩⟩
    · simp only [hb, if_false, false_and, false_or, Nat.not_lt.mp hb, true_and]
      split
      · rename_i hi9
        refine iff_of_false (by simp) ?_
        rintro ⟨u,-,hd,hl,-⟩
        have := hd.length_pos
        simp only [List.length_cons] at hl
        omega
      · rename_i hi9
        have hlt : i < 9 := by omega
        rw [ih (by omega)]
        refine exists_congr (fun u => and_congr_right (fun _ => and_congr_right (fun _ => ?_)))
        simp only [digitsValue, List.length_cons, more_digits_lt hlt (Nat.mod_lt _ (by decide))]
        have hsum : x+(b.toNat%128+128*digitsValue u)*128^i = x+b.toNat%128*128^i+digitsValue u*128^(i+1) := by ring
        rw [hsum, Nat.add_right_comm i, Nat.add_assoc i]

theorem readUvarint_ok_iff {n : Nat} {bs rest : List UInt8} :
    readUvarint bs = .ok (n,rest) ↔ ∃ u, bs = u ++ rest ∧ IsUvarint u n := by
  unfold readUvarint
  rw [readUvarintFrom_ok_iff (by omega)]
  constructor
  · rintro ⟨u,hu,hd,hl,hv,rfl⟩
    exact ⟨u,hu,hd,by simpa [maxVarintLen64] using hl,by simp,by simpa using hv⟩
  · rintro ⟨u,hu,h⟩
    refine ⟨u,hu,h.digits,by simpa [maxVarintLen64] using h.short,?_,by simp [h.value]⟩
    simpa [h.value] using h.fits

/-- Only an allocation can panic. -/
theorem readFull_no_panic (n : Nat) (bs : List UInt8) : readFull n bs ≠ .error .lenOutOfRange := by
  unfold readFull
  split
  · simp
  · split <;> simp

private theorem readUvarintFrom_no_panic (i x : Nat) (bs : List UInt8) : readUvarintFrom i x bs ≠ .error .lenOutOfRange := by
  induction bs generalizing i x with
  | nil =>
    unfold readUvarintFrom
    split <;> simp
  | cons b bs ih =>
    unfold readUvarintFrom
    split
    · split <;> simp
    · split
      · simp
      · exact ih _ _

theorem readUvarint_no_panic (bs : List UInt8) : readUvarint bs ≠ .error .lenOutOfRange := readUvarintFrom_no_panic 0 0 bs

end Accepts

end Nawst.Lib.ByteStream
