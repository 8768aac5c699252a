import Nawst.Lib.ByteStream
import Nawst.Core.StoreApply

/-! The record format of the write-ahead log and its replay. Encoder and decoder
are separate functions, as in the source; exactness of the decoder on every
record gives both the round trip and the behaviour on a file cut anywhere. -/
namespace Nawst.Core.Wal
open Lib.ByteStream

/-- Everything after the op byte: vnode, version, and the two length-prefixed fields. -/
def encodeBody (cmd : Command) : List UInt8 :=
  putBigEndian 2 cmd.vnodeID.toNat ++ (putBigEndian 8 cmd.version.toNat ++
    (putUvarint cmd.key.data.length ++ (cmd.key.data ++
      (putUvarint cmd.value.data.length ++ cmd.value.data))))

def encode (cmd : Command) : List UInt8 := cmd.op :: encodeBody cmd

def encodeAll (cmds : List Command) : List UInt8 := cmds.flatMap encode

theorem readFull_length {n : Nat} {bs data rest : List UInt8} (h : readFull n bs = .ok (data,rest)) :
    data.length = n := by
  unfold readFull at h
  split at h
  · cases h
    simpa
  · split at h <;> cases h

/-- Allocate n bytes, which panics past the largest slice, and fill them. -/
def readBytes (n : Nat) : Parser Bytes := fun bs =>
  if hn : n ≤ maxSliceLen then
    match hr : readFull n bs with
    | .ok (data,rest) => .ok (⟨data,(readFull_length hr).trans_le hn⟩,rest)
    | .error f => .error f
  else .error .lenOutOfRange

def readBody (op : OpType) : Parser Command := do
  let vnodeBytes ← readFull 2
  let versionBytes ← readFull 8
  let keyLen ← readUvarint
  let key ← readBytes keyLen
  let valLen ← readUvarint
  let val ← readBytes valLen
  pure ⟨op,key,val,UInt16.ofNat (bigEndian vnodeBytes),UInt64.ofNat (bigEndian versionBytes)⟩

/-- How a replay ends: a nil error, an error value, or a panic. The last case is
an exhausted iteration bound, which never happens. -/
inductive Replayed where
  | ok | readError (f : Fault) | applyError (e : Err) | panicked | diverged
  deriving DecidableEq, Repr

def Replayed.ofFault : Fault → Replayed
  | .lenOutOfRange => .panicked
  | f => .readError f

section Replay
variable {σ : Type} (apply : σ → Command → σ × Option Err)

def replayLoop : Nat → List UInt8 → σ → σ × Replayed
  | 0, _, s => (s,.diverged)
  | fuel+1, bs, s =>
    match readByte bs with
    | .error .eof => (s,.ok)
    | .error f => (s,.ofFault f)
    | .ok (op,bs) =>
      match readBody op bs with
      | .error f => (s,.ofFault f)
      | .ok (cmd,bs) =>
        match apply s cmd with
        | (s,some e) => (s,.applyError e)
        | (s,none) => replayLoop fuel bs s

/-- Replay the content of an opened file. Each record takes at least one byte. -/
def replayWal (bs : List UInt8) (s : σ) : σ × Replayed := replayLoop apply (bs.length+1) bs s

/-- The state after handing the commands to apply one by one. -/
def applyEach (s : σ) (cmds : List Command) : σ := cmds.foldl (fun s c => (apply s c).1) s

end Replay

@[simp] theorem encodeAll_nil : encodeAll [] = [] := rfl

@[simp] theorem encodeAll_cons (c : Command) (cs : List Command) :
    encodeAll (c::cs) = encode c ++ encodeAll cs := List.flatMap_cons

@[simp] theorem encodeAll_append (cs ds : List Command) :
    encodeAll (cs ++ ds) = encodeAll cs ++ encodeAll ds := List.flatMap_append

theorem encode_length_pos (c : Command) : 0 < (encode c).length := by simp [encode]

private theorem readBytes_exact (b : Bytes) : Exact (readBytes b.data.length) b.data b where
  whole rest := by
    have hw := (Exact.readFull b.data).whole rest
    unfold readBytes
    rw [dif_pos b.len_le]
    split
    · rename_i data rest' hr
      rw [hw] at hr
      cases hr
      rfl
    · rename_i f hr
      rw [hw] at hr
      cases hr
  cut q hq hne := by
    obtain ⟨f,he,hf⟩ := (Exact.readFull b.data).cut q hq hne
    refine ⟨f,?_,hf⟩
    unfold readBytes
    rw [dif_pos b.len_le]
    split
    · rename_i data rest hr
      rw [he] at hr
      cases hr
    · rename_i g hr
      rw [he] at hr
      cases hr
      rfl

private theorem readWord_exact (n x : Nat) : Exact (readFull n) (putBigEndian n x) (putBigEndian n x) := by
  simpa using Exact.readFull (putBigEndian n x)

private theorem readLen_exact (b : Bytes) : Exact readUvarint (putUvarint b.data.length) b.data.length :=
  Exact.readUvarint _ (lt_of_le_of_lt b.len_le (by decide))

/-- The decoder reads every record body back and notices every cut inside it. -/
theorem readBody_exact (cmd : Command) : Exact (readBody cmd.op) (encodeBody cmd) cmd := by
  have hv : UInt16.ofNat (bigEndian (putBigEndian 2 cmd.vnodeID.toNat)) = cmd.vnodeID := by
    rw [bigEndian_putBigEndian, Nat.mod_eq_of_lt (show _ < 256^2 from cmd.vnodeID.toNat_lt), UInt16.ofNat_toNat]
  have hw : UInt64.ofNat (bigEndian (putBigEndian 8 cmd.version.toNat)) = cmd.version := by
    rw [bigEndian_putBigEndian, Nat.mod_eq_of_lt (show _ < 256^8 from cmd.version.toNat_lt), UInt64.ofNat_toNat]
  have hval := (readBytes_exact cmd.value).bind_pure (fun val : Value => (⟨cmd.op,cmd.key,val,
    UInt16.ofNat (bigEndian (putBigEndian 2 cmd.vnodeID.toNat)),
    UInt64.ofNat (bigEndian (putBigEndian 8 cmd.version.toNat))⟩ : Command))
  have hall := (readWord_exact 2 cmd.vnodeID.toNat).bind (k := fun vnodeBytes => do
      let versionBytes ← readFull 8
      let keyLen ← readUvarint
      let key ← readBytes keyLen
      let valLen ← readUvarint
      let val ← readBytes valLen
      pure (⟨cmd.op,key,val,UInt16.ofNat (bigEndian vnodeBytes),UInt64.ofNat (bigEndian versionBytes)⟩ : Command))
    ((readWord_exact 8 cmd.version.toNat).bind ((readLen_exact cmd.key).bind
      ((readBytes_exact cmd.key).bind ((readLen_exact cmd.value).bind hval))))
  rw [hv, hw] at hall
  exact hall

/-- The commands whose records lie completely within the first n bytes. -/
def completeRecords : List Command → Nat → List Command
  | [], _ => []
  | c::cs, n => if (encode c).length ≤ n then c :: completeRecords cs (n-(encode c).length) else []

theorem completeRecords_initial (cmds : List Command) (n : Nat) : completeRecords cmds n <+: cmds := by
  induction cmds generalizing n with
  | nil => exact List.prefix_rfl
  | cons c cs ih =>
    unfold completeRecords
    split
    · exact (List.prefix_cons_inj c).mpr (ih _)
    · exact List.nil_prefix

theorem prefix_completeRecords {ds cmds : List Command} (hd : ds <+: cmds) {n : Nat}
    (hn : (encodeAll ds).length ≤ n) : ds <+: completeRecords cmds n := by
  induction ds generalizing cmds n with
  | nil => exact List.nil_prefix
  | cons d ds ih =>
    obtain ⟨es,rfl⟩ := hd
    simp only [encodeAll_cons, List.length_append] at hn
    rw [List.cons_append, completeRecords, if_pos (by omega)]
    exact (List.prefix_cons_inj d).mpr (ih (List.prefix_append ds es) (by omega))

/-- Between two records nothing more is complete. -/
theorem completeRecords_boundary {ds cmds : List Command} (hd : ds <+: cmds) :
    completeRecords cmds (encodeAll ds).length = ds := by
  induction ds generalizing cmds with
  | nil =>
    cases cmds with
    | nil => rfl
    | cons c cs => exact if_neg (Nat.not_le.mpr (encode_length_pos c))
  | cons d ds ih =>
    obtain ⟨es,rfl⟩ := hd
    rw [List.cons_append, completeRecords, encodeAll_cons, List.length_append, if_pos (Nat.le_add_right _ _),
      Nat.add_sub_cancel_left, ih (List.prefix_append ds es)]

/-- A file cut anywhere is its complete records and a proper piece of one more. -/
theorem prefix_encodeAll {cmds : List Command} {p : List UInt8} (hp : p <+: encodeAll cmds) :
    ∃ q, p = encodeAll (completeRecords cmds p.length) ++ q ∧
      (q = [] ∨ ∃ c, q <+: encode c ∧ q ≠ encode c ∧ q ≠ []) := by
  induction cmds generalizing p with
  | nil => exact ⟨[],by simpa [completeRecords] using hp,.inl rfl⟩
  | cons c cs ih =>
    rw [encodeAll_cons] at hp
    rcases List.prefix_or_prefix_of_prefix hp (List.prefix_append (encode c) _) with hc | ⟨r,rfl⟩
    · by_cases he : p = encode c
      · have hone := completeRecords_boundary (List.prefix_append [c] cs)
        rw [encodeAll_cons, encodeAll_nil, List.append_nil, ← he, List.singleton_append] at hone
        exact ⟨[],by simpa [hone] using he,.inl rfl⟩
      · have hl : ¬ (encode c).length ≤ p.length :=
          fun hle => he (hc.eq_of_length (Nat.le_antisymm hc.length_le hle))
        refine ⟨p,by simp [completeRecords, hl],?_⟩
        by_cases hn : p = []
        · exact .inl hn
        · exact .inr ⟨c,hc,he,hn⟩
    · obtain ⟨q,hq,hcase⟩ := ih ((List.prefix_append_right_inj _).mp hp)
      refine ⟨q,?_,hcase⟩
      simp only [completeRecords, List.length_append, Nat.le_add_right, if_true,
        Nat.add_sub_cancel_left, encodeAll_cons, List.append_assoc, ← hq]

section Replay
variable {σ : Type} {apply : σ → Command → σ × Option Err}

theorem replayLoop_record {c : Command} {s : σ} (hok : (apply s c).2 = none) (fuel : Nat) (rest : List UInt8) :
    replayLoop apply (fuel+1) (encode c ++ rest) s = replayLoop apply fuel rest (apply s c).1 := by
  rw [replayLoop, encode, List.cons_append, readByte]
  simp only [(readBody_exact c).whole rest]
  cases hr : apply s c with
  | mk s' e =>
    rw [hr] at hok
    cases hok
    rfl

theorem replayLoop_encodeAll {cmds : List Command} (hok : ∀ c ∈ cmds, ∀ s, (apply s c).2 = none)
    (fuel : Nat) (rest : List UInt8) (s : σ) :
    replayLoop apply (cmds.length+fuel) (encodeAll cmds ++ rest) s =
      replayLoop apply fuel rest (applyEach apply s cmds) := by
  induction cmds generalizing s with
  | nil => simp [applyEach]
  | cons c cs ih =>
    obtain ⟨hc,hcs⟩ := List.forall_mem_cons.mp hok
    rw [List.length_cons, Nat.add_right_comm, encodeAll_cons, List.append_assoc,
      replayLoop_record (hc s), ih hcs]
    rfl

theorem replayLoop_cut {c : Command} {q : List UInt8} (hq : q <+: encode c) (hne : q ≠ encode c)
    (hnil : q ≠ []) (fuel : Nat) (s : σ) :
    ∃ f, f.Truncated ∧ replayLoop apply (fuel+1) q s = (s,.readError f) := by
  rcases List.prefix_cons_iff.mp hq with rfl | ⟨r,rfl,hr⟩
  · exact absurd rfl hnil
  · obtain ⟨f,he,hf⟩ := (readBody_exact c).cut r hr (fun h => hne (by rw [h]; rfl))
    refine ⟨f,hf,?_⟩
    rw [replayLoop, readByte]
    simp only [he]
    cases f <;> first | rfl | exact absurd hf id

theorem length_le_encodeAll (cmds : List Command) : cmds.length ≤ (encodeAll cmds).length := by
  induction cmds with
  | nil => exact Nat.zero_le _
  | cons c cs ih =>
    have := encode_length_pos c
    simp only [encodeAll_cons, List.length_append, List.length_cons]
    omega

/-- Whatever follows the records, the replay gets past them with every command applied. -/
theorem replayWal_encodeAll_append {cmds : List Command} (hok : ∀ c ∈ cmds, ∀ s, (apply s c).2 = none)
    (rest : List UInt8) (s : σ) :
    ∃ fuel, replayWal apply (encodeAll cmds ++ rest) s = replayLoop apply (fuel+1) rest (applyEach apply s cmds) := by
  have hl := length_le_encodeAll cmds
  refine ⟨(encodeAll cmds ++ rest).length-cmds.length,?_⟩
  rw [replayWal, ← replayLoop_encodeAll hok]
  congr 1
  simp only [List.length_append]
  omega

/-- The round trip: an uncut file replays to exactly its commands. -/
theorem replayWal_encodeAll {cmds : List Command} (hok : ∀ c ∈ cmds, ∀ s, (apply s c).2 = none) (s : σ) :
    replayWal apply (encodeAll cmds) s = (applyEach apply s cmds,.ok) := by
  obtain ⟨fuel,hr⟩ := replayWal_encodeAll_append hok [] s
  rw [List.append_nil] at hr
  rw [hr]
  rfl

/-- A cut file has its complete records applied; the error depends on the cut. -/
theorem replayWal_cut {cmds : List Command} (hok : ∀ c ∈ cmds, ∀ s, (apply s c).2 = none)
    {p : List UInt8} (hp : p <+: encodeAll cmds) (s : σ) :
    (replayWal apply p s).1 = applyEach apply s (completeRecords cmds p.length) ∧
      if p = encodeAll (completeRecords cmds p.length) then (replayWal apply p s).2 = .ok
      else ∃ f, f.Truncated ∧ (replayWal apply p s).2 = .readError f := by
  obtain ⟨q,hpq,hq⟩ := prefix_encodeAll hp
  have hok' : ∀ c ∈ completeRecords cmds p.length, ∀ s, (apply s c).2 = none :=
    fun c hc => hok c ((completeRecords_initial _ _).subset hc)
  obtain ⟨fuel,hr⟩ := replayWal_encodeAll_append hok' q s
  rw [← hpq] at hr
  rcases hq with rfl | ⟨c,hc,hne,hnil⟩
  · rw [List.append_nil] at hpq
    rw [if_pos hpq, hr]
    exact ⟨rfl,rfl⟩
  · obtain ⟨f,hf,he⟩ := replayLoop_cut hc hne hnil fuel
      (applyEach apply s (completeRecords cmds p.length))
    rw [if_neg (fun h => hnil (List.append_right_eq_self.mp (hpq.symm.trans h))), hr, he]
    exact ⟨rfl,f,hf,rfl⟩

end Replay

/-- Startup replays an existing file into an empty store and panics on any
error; none is the panic. -/
def startup : Option (List UInt8) → Option Store
  | none => some newStore
  | some bs => match replayWal Store.apply bs newStore with
    | (s,.ok) => some s
    | _ => none

/-- The prefix stops exactly between two records. -/
def EndsAtRecord (cmds : List Command) (p : List UInt8) : Prop := ∃ j, p = encodeAll (cmds.take j)

/-- Replaying a cut log applies the complete records and reports no error
precisely when the cut falls between records. -/
theorem replay_cut_iff {σ : Type} (apply : σ → Command → σ × Option Err) (cmds : List Command)
    (hok : ∀ c ∈ cmds, ∀ s, (apply s c).2 = none) (p : List UInt8) (hp : p <+: encodeAll cmds) (s : σ) :
    replayWal apply p s = (applyEach apply s (completeRecords cmds p.length),.ok) ↔ EndsAtRecord cmds p := by
  obtain ⟨hstate,hend⟩ := replayWal_cut hok hp s
  constructor
  · intro h
    rw [h] at hend
    split at hend
    · rename_i hb
      have ht := List.prefix_iff_eq_take.mp (completeRecords_initial cmds p.length)
      exact ⟨_,hb.trans (congrArg encodeAll ht)⟩
    · obtain ⟨f,_,he⟩ := hend
      cases he
  · rintro ⟨j,rfl⟩
    have ht : cmds.take j <+: cmds := List.take_prefix j cmds
    have hj := completeRecords_boundary ht
    rw [hj] at hstate hend ⊢
    rw [if_pos rfl] at hend
    exact Prod.ext hstate hend

/-- A put of one byte under a one-byte key. -/
def samplePut : Command := ⟨opPut,sampleKey,.singleton 118,7,1⟩

/-- A later put of the key. -/
def laterPut : Command := ⟨opPut,sampleKey,.singleton 119,7,2⟩

/-- The file is cut between its two records. -/
theorem replay_cut_iff_sample :
    encode samplePut <+: encodeAll [samplePut,laterPut] ∧
      replayWal Store.apply (encode samplePut) newStore = (applyEach Store.apply newStore [samplePut],.ok) := by
  have hcut : encode samplePut <+: encodeAll [samplePut,laterPut] := List.prefix_append _ _
  have h := replay_cut_iff Store.apply [samplePut,laterPut]
    (fun c hc s => Store.apply_write_err (by rcases List.mem_pair.mp hc with rfl | rfl <;> decide)) _ hcut newStore
  have hc := completeRecords_boundary (show [samplePut] <+: [samplePut,laterPut] from List.prefix_append _ _)
  rw [encodeAll_cons, encodeAll_nil, List.append_nil] at hc
  rw [hc] at h
  refine ⟨hcut,h.mpr ⟨1,?_⟩⟩
  rw [List.take_one, List.head?_cons, Option.toList_some, encodeAll_cons, encodeAll_nil, List.append_nil]

/-- A crash after the first byte of the first record: the replay fails, and so
does every later start of the node. -/
theorem torn_record_fails_replay :
    [opPut] <+: encodeAll [samplePut] ∧
      replayWal Store.apply [opPut] newStore ≠
        (applyEach Store.apply newStore (completeRecords [samplePut] 1),.ok) ∧
      startup (some [opPut]) = none := by
  decide

end Nawst.Core.Wal
