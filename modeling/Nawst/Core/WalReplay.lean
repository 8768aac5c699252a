import Nawst.Core.WalFormat

/-! Replaying arbitrary bytes: the longest sequence of complete records is applied, and the
replay panics exactly if it then meets a length beyond every slice. -/
namespace Nawst.Core.Wal
open Lib.ByteStream

/-- A complete record of a command: op, vnode id, version, and key and value behind their
lengths, which need not be written in the shortest way. -/
def IsRecord (w : List UInt8) (c : Command) : Prop :=
  ∃ vnode version keyLen valLen : List UInt8,
    w = c.op::(vnode ++ (version ++ (keyLen ++ (c.key.data ++ (valLen ++ c.value.data))))) ∧
    vnode.length = 2 ∧ version.length = 8 ∧ IsUvarint keyLen c.key.data.length ∧ IsUvarint valLen c.value.data.length ∧
    c.vnodeID = UInt16.ofNat (bigEndian vnode) ∧ c.version = UInt64.ofNat (bigEndian version)

/-- The bytes start like a record, up to the length of its key or of its value, and that
length is beyond every slice. -/
def Oversized (bs : List UInt8) : Prop :=
  ∃ op vnode version keyLen rest n, bs = op::(vnode ++ (version ++ (keyLen ++ rest))) ∧
    vnode.length = 2 ∧ version.length = 8 ∧ IsUvarint keyLen n ∧
    (maxSliceLen < n ∨ n ≤ maxSliceLen ∧ ∃ key valLen rest' m, rest = key ++ (valLen ++ rest') ∧ key.length = n ∧
      IsUvarint valLen m ∧ maxSliceLen < m)

section Readers
variable {n : Nat} {bs rest : List UInt8} {b : Bytes}

theorem readBytes_ok_iff : readBytes n bs = .ok (b,rest) ↔ bs = b.data ++ rest ∧ b.data.length = n := by
  rw [← readFull_ok_iff]
  unfold readBytes
  split
  · split
    · rename_i data rest' hr
      cases b
      simp [hr]
    · rename_i f hr
      simp [hr]
  · rename_i hn
    refine iff_of_false (by simp) (fun hr => hn ?_)
    exact (readFull_ok_iff.mp hr).2 ▸ b.len_le

theorem readBytes_panic_iff : readBytes n bs = .error .lenOutOfRange ↔ maxSliceLen < n := by
  unfold readBytes
  split
  · rename_i hn
    refine iff_of_false ?_ (Nat.not_lt.mpr hn)
    split
    · simp
    · rename_i f hr
      rintro ⟨⟩
      exact readFull_no_panic n bs hr
  · rename_i hn
    simpa using hn

/-- The decoder accepts exactly what starts with a complete record. -/
theorem readBody_ok_iff {op : OpType} {c : Command} :
    readBody op bs = .ok (c,rest) ↔ ∃ w, op::bs = w ++ rest ∧ IsRecord w c := by
  simp only [readBody, bind_ok_iff, readFull_ok_iff, readUvarint_ok_iff, readBytes_ok_iff]
  constructor
  · rintro ⟨vnode,_,⟨rfl,hvnode⟩,version,_,⟨rfl,hversion⟩,n,_,⟨keyLen,rfl,hkeyLen⟩,key,_,⟨rfl,rfl⟩,m,_,⟨valLen,rfl,hvalLen⟩,
      val,_,⟨rfl,rfl⟩,⟨⟩⟩
    exact ⟨_,by simp,vnode,version,keyLen,valLen,rfl,hvnode,hversion,hkeyLen,hvalLen,rfl,rfl⟩
  · rintro ⟨w,hw,vnode,version,keyLen,valLen,rfl,hvnode,hversion,hkeyLen,hvalLen,hid,hver⟩
    obtain ⟨rfl,rfl⟩ := List.cons.inj hw
    refine ⟨vnode,_,⟨List.append_assoc _ _ _,hvnode⟩,version,_,⟨List.append_assoc _ _ _,hversion⟩,_,_,
      ⟨keyLen,List.append_assoc _ _ _,hkeyLen⟩,c.key,_,⟨List.append_assoc _ _ _,rfl⟩,_,_,
      ⟨valLen,List.append_assoc _ _ _,hvalLen⟩,c.value,_,⟨rfl,rfl⟩,?_⟩
    rw [← hid, ← hver]
    rfl

theorem readBody_panic_iff {op : OpType} : readBody op bs = .error .lenOutOfRange ↔ Oversized (op::bs) := by
  simp only [readBody, bind_error_iff, readFull_ok_iff, readUvarint_ok_iff, readBytes_ok_iff, readFull_no_panic,
    readUvarint_no_panic, readBytes_panic_iff, false_or]
  constructor
  · rintro ⟨vnode,_,⟨rfl,hvnode⟩,version,_,⟨rfl,hversion⟩,n,rest,⟨keyLen,rfl,hkeyLen⟩,hcase⟩
    refine ⟨op,vnode,version,keyLen,rest,n,rfl,hvnode,hversion,hkeyLen,hcase.imp_right ?_⟩
    rintro ⟨key,_,⟨rfl,rfl⟩,m,rest',⟨valLen,rfl,hvalLen⟩,hm | ⟨val,_,_,hpure⟩⟩
    · exact ⟨key.len_le,key.data,valLen,rest',m,rfl,rfl,hvalLen,hm⟩
    · cases hpure
  · rintro ⟨op',vnode,version,keyLen,rest,n,hbs,hvnode,hversion,hkeyLen,hcase⟩
    obtain ⟨rfl,rfl⟩ := List.cons.inj hbs
    refine ⟨vnode,_,⟨rfl,hvnode⟩,version,_,⟨rfl,hversion⟩,n,rest,⟨keyLen,rfl,hkeyLen⟩,hcase.imp_right ?_⟩
    rintro ⟨hn,key,valLen,rest',m,rfl,rfl,hvalLen,hm⟩
    exact ⟨⟨key,hn⟩,_,⟨rfl,rfl⟩,m,rest',⟨valLen,rfl,hvalLen⟩,.inl hm⟩

end Readers

/-- The commands are those of the longest sequence of complete records at the start, and
the tail is what follows it. -/
structure Longest (bs : List UInt8) (cs : List Command) (tail : List UInt8) : Prop where
  records : ∃ ws, List.Forall₂ IsRecord ws cs ∧ bs = ws.flatten ++ tail
  longest : ∀ ws cs' tail', List.Forall₂ IsRecord ws cs' → bs = ws.flatten ++ tail' → cs' <+: cs

section Records
variable {w : List UInt8} {c : Command}

theorem IsRecord.ne_nil (h : IsRecord w c) : w ≠ [] := by
  obtain ⟨_,_,_,_,rfl,-⟩ := h
  simp

/-- No two different records start the same bytes. -/
theorem IsRecord.unique (h : IsRecord w c) {w' : List UInt8} {c' : Command} (h' : IsRecord w' c') {rest rest' : List UInt8}
    (heq : w ++ rest = w' ++ rest') : c = c' ∧ rest = rest' := by
  obtain ⟨op,bs,hbs⟩ := List.exists_cons_of_ne_nil (List.append_ne_nil_of_left_ne_nil h.ne_nil rest)
  have hr := readBody_ok_iff.mpr ⟨w,hbs.symm,h⟩
  have hr' := readBody_ok_iff.mpr ⟨w',hbs.symm.trans heq,h'⟩
  simpa using hr.symm.trans hr'

theorem longest_nil {bs : List UInt8} (hnone : ∀ w c rest, IsRecord w c → bs ≠ w ++ rest) : Longest bs [] bs where
  records := ⟨[],.nil,rfl⟩
  longest ws cs' tail' hws hbs := by
    cases hws with
    | nil => exact List.nil_prefix
    | cons hw _ =>
      rw [List.flatten_cons, List.append_assoc] at hbs
      exact absurd hbs (hnone _ _ _ hw)

theorem Longest.cons {rest tail : List UInt8} {cs : List Command} (hw : IsRecord w c) (h : Longest rest cs tail) :
    Longest (w ++ rest) (c::cs) tail where
  records := by
    obtain ⟨ws,hws,rfl⟩ := h.records
    exact ⟨w::ws,.cons hw hws,by simp⟩
  longest ws cs' tail' hws hbs := by
    cases hws with
    | nil => exact List.nil_prefix
    | cons hw' hws =>
      rw [List.flatten_cons, List.append_assoc] at hbs
      obtain ⟨rfl,hrest⟩ := hw.unique hw' hbs
      exact (List.prefix_cons_inj _).mpr (h.longest _ _ tail' hws hrest)

end Records

section Replay
variable {σ : Type} {apply : σ → Command → σ × Option Err}

/-- What a replay of some bytes comes to, apart from the error it may return. -/
structure Replays (apply : σ → Command → σ × Option Err) (s : σ) (bs : List UInt8) (out : σ × Replayed) (cs : List Command)
    (tail : List UInt8) : Prop where
  longest : Longest bs cs tail
  applied : out.1 = applyEach apply s cs
  ended : out.2 ≠ .diverged
  panicked : out.2 = .panicked ↔ Oversized tail

theorem replayLoop_replays (hok : ∀ s c, (apply s c).2 = none) {fuel : Nat} {bs : List UInt8} (hf : bs.length < fuel) (s : σ) :
    ∃ cs tail, Replays apply s bs (replayLoop apply fuel bs s) cs tail := by
  induction fuel generalizing bs s with
  | zero => exact absurd hf (Nat.not_lt_zero _)
  | succ fuel ih =>
    cases bs with
    | nil =>
      have hnone : ∀ w c rest, IsRecord w c → [] ≠ w ++ rest := by
        intro w c rest hw heq
        exact hw.ne_nil (List.append_eq_nil_iff.mp heq.symm).1
      refine ⟨[],[],longest_nil hnone,rfl,by simp [replayLoop, readByte],?_⟩
      exact iff_of_false (by simp [replayLoop, readByte]) (by rintro ⟨_,_,_,_,_,_,hbs,-⟩; cases hbs)
    | cons op bs =>
      simp only [replayLoop, readByte]
      cases hr : readBody op bs with
      | error f =>
        have hnone : ∀ w c rest, IsRecord w c → op::bs ≠ w ++ rest := by
          intro w c rest hw heq
          have hok := readBody_ok_iff.mpr ⟨w,heq,hw⟩
          rw [hr] at hok
          cases hok
        refine ⟨[],op::bs,longest_nil hnone,rfl,?_,?_⟩
        · cases f <;> simp [Replayed.ofFault]
        · rw [← readBody_panic_iff, hr]
          cases f <;> simp [Replayed.ofFault]
      | ok out =>
        obtain ⟨c,rest⟩ := out
        obtain ⟨w,hw,hrec⟩ := readBody_ok_iff.mp hr
        have hlt : rest.length < fuel := by
          have hpos := List.length_pos_of_ne_nil hrec.ne_nil
          have hlen := congrArg List.length hw
          rw [List.length_append] at hlen
          omega
        obtain ⟨s',hs'⟩ : ∃ s', apply s c = (s',none) := ⟨(apply s c).1,Prod.ext rfl (hok s c)⟩
        obtain ⟨cs,tail,h⟩ := ih hlt s'
        simp only [hs']
        refine ⟨c::cs,tail,hw ▸ h.longest.cons hrec,?_,h.ended,h.panicked⟩
        rw [h.applied, applyEach, applyEach, List.foldl_cons, hs']

end Replay

/-- Whatever the bytes are, the replay ends and has applied the longest sequence of complete
records; it does not panic exactly if no length beyond every slice follows them. -/
theorem replay_safe_iff {σ : Type} (apply : σ → Command → σ × Option Err) (hok : ∀ s c, (apply s c).2 = none)
    (bs : List UInt8) (s : σ) :
    ∃ cs tail, Longest bs cs tail ∧ (replayWal apply bs s).1 = applyEach apply s cs ∧
      (replayWal apply bs s).2 ≠ .diverged ∧ ((replayWal apply bs s).2 ≠ .panicked ↔ ¬ Oversized tail) := by
  obtain ⟨cs,tail,h⟩ := replayLoop_replays hok (Nat.lt_succ_self bs.length) s
  exact ⟨cs,tail,h.longest,h.applied,h.ended,not_congr h.panicked⟩

/-- Keep the commands. -/
def collect (log : List Command) (c : Command) : List Command × Option Err := (log ++ [c],none)

theorem replay_safe_iff_sample :
    replayWal collect (encode samplePut ++ [opPut]) [] = ([samplePut],.readError .eof) ∧
    ∃ cs tail, Longest (encode samplePut ++ [opPut]) cs tail ∧ ¬ Oversized tail := by
  have hrun : replayWal collect (encode samplePut ++ [opPut]) [] = ([samplePut],.readError .eof) := by decide
  obtain ⟨cs,tail,hlongest,-,-,hpanic⟩ := replay_safe_iff collect (fun _ _ => rfl) (encode samplePut ++ [opPut]) []
  exact ⟨hrun,cs,tail,hlongest,hpanic.mp (by rw [hrun]; decide)⟩

/-- A key length of 64 ones. -/
def hugeKeyLen : List UInt8 := opPut::(List.replicate 10 0 ++ (List.replicate 9 255 ++ [1]))

theorem huge_length_panics : replayWal collect hugeKeyLen [] = ([],.panicked) := by decide

end Nawst.Core.Wal
