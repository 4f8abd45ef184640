import ForkFs.Rpc.Frame

/-!
# Clients

A client sends the frame of its fields and reads the frame of the reply: first the header, which
tells how much follows, then the rest. Each call of `recv` may return any part of what is asked
for. What the client sends is what the server decodes, and what the server replies is what the
client returns or throws.
-/

namespace ForkFs.Rpc

open Bytes Outcome Scan

section Frames

/-- A frame. -/
def frame (magic : String) (payload : Bytes) : Except String Bytes := do
  need (payload.length ≤ limit) "RPC payload exceeds 1 MiB"
  return ascii magic ++ (store payload.length 4 ++ payload)

/-- The frame that a client sends. -/
def requestFrame (fields : List Bytes) : Except String Bytes := do
  need (fields ≠ [] ∧ fields.length ≤ 16) "RPC requires 1..16 fields"
  fields.forM fun field => need (field.length ≤ limit) "oversized RPC field"
  frame "FFRPC001" (store fields.length 4 ++ fields.flatMap fun field => store field.length 4 ++ field)

/-- The frame of a reply. -/
def response (code : ℕ) (value : Bytes) : Except String Bytes := frame "FFRSP001" (store code 4 ++ value)

theorem requestFrame_eq_ok {fields : List Bytes} {b : Bytes} :
    requestFrame fields = .ok b ↔ IsFrame b fields := by
  rw [requestFrame, need_bind_eq_ok, bind_eq_ok]
  constructor
  · rintro ⟨⟨hne, hcount⟩, _, -, h⟩
    obtain ⟨hsize, h⟩ := need_bind_eq_ok.mp h
    exact ⟨(pure_eq_ok.mp h).symm, List.length_pos_iff.mpr hne, hcount, hsize⟩
  · rintro ⟨rfl, hpos, hcount, hsize⟩
    refine ⟨⟨List.length_pos_iff.mp hpos, hcount⟩, (), forM_eq_ok.mpr fun f hf => need_of ?_,
      need_bind_eq_ok.mpr ⟨hsize, rfl⟩⟩
    have hfield := length_field_le hf
    rw [length_payload] at hsize
    omega

end Frames

section Accesses

/-- A field of a request. -/
def scanField (b : Bytes) (pos : ℕ) : Scanned (Bytes × ℕ) := do
  let n ← Scan.u32 "truncated RPC integer" b pos
  let rest ← left b (pos + 4)
  demand (n ≤ rest) "truncated RPC field"
  let field ← peek b (pos + 4) n
  pure (field, pos + 4 + n)

/-- The fields of a request. -/
def scanFields (b : Bytes) (pos : ℕ) : Scanned (List Bytes × ℕ) := do
  let count ← Scan.u32 "truncated RPC integer" b pos
  demand (0 < count ∧ count ≤ 16) "RPC requires 1..16 fields"
  many (fun _ => scanField) (fun u _ => u) count () b (pos + 4)

/-- The judgement of what was read so far, with checked accesses. -/
def scanFrame (b : Bytes) : Scanned (Option (List Bytes)) := do
  if header ≤ b.length then
    let magic ← peek b 0 8
    demand (magic = ascii "FFRPC001") "unsupported RPC protocol"
    let length ← Scan.u32 "truncated RPC integer" b 8
    demand (4 ≤ length ∧ length ≤ limit) "invalid RPC request length"
    demand (b.length ≤ header + length) "trailing RPC frame"
    if b.length = header + length then some <$> finish "trailing RPC bytes" scanFields b header
    else pure none
  else pure none

variable {b : Bytes} {pos n : ℕ}

theorem lift_u32 : lift (u32 b pos) = Scan.u32 "truncated RPC integer" b pos := by
  rw [u32, lift_bind, lift_need, Scan.u32]
  refine demand_bind_congr fun hin => ?_
  rw [peek_of_le (by omega)]
  rfl

/-- A number that was read is inside. -/
theorem le_of_u32 {v : ℕ} {message : String} (hpos : pos ≤ b.length)
    (h : Scan.u32 message b pos = .ok v) : pos + 4 ≤ b.length := by
  have hin := ((Scan.u32_eq_ok hpos).mp h).2.length_le
  rw [length_store, List.length_drop] at hin
  omega

theorem lift_decodeFields (hpos : pos ≤ b.length) :
    lift (decodeFields b n pos) = many (fun _ => scanField) (fun u _ => u) n () b pos := by
  induction n generalizing pos with
  | zero => rfl
  | succ n ih =>
    rw [decodeFields, lift_bind, lift_u32, many, scanField, bind_assoc]
    cases hv : Scan.u32 "truncated RPC integer" b pos with
    | error fault => rfl
    | ok v =>
      have hin := le_of_u32 hpos hv
      rw [ok_bind, ok_bind, lift_bind, lift_need, left_of_le hin, ok_bind, bind_assoc]
      refine demand_bind_congr fun hfield => ?_
      rw [peek_of_le (by omega), ok_bind, pure_bind, lift_bind, ih (by omega)]
      rfl

theorem lift_decode (hlength : header ≤ b.length) :
    lift (decode b) = finish "trailing RPC bytes" scanFields b header := by
  rw [decode, lift_bind, lift_u32, finish, scanFields, bind_assoc]
  cases hcount : Scan.u32 "truncated RPC integer" b header with
  | error fault => rfl
  | ok count =>
    have hin := le_of_u32 hlength hcount
    rw [ok_bind, ok_bind, lift_bind, lift_need, bind_assoc]
    refine demand_bind_congr fun _ => ?_
    rw [lift_bind, lift_decodeFields hin]
    cases many (fun _ => scanField) (fun u _ => u) count () b (header + 4) with
    | error fault => rfl
    | ok p =>
      rw [ok_bind, ok_bind, lift_bind, lift_need]
      rfl

/-- The judgement has no access outside what was read. -/
theorem scanFrame_eq (b : Bytes) : scanFrame b = lift (accept b) := by
  unfold scanFrame accept
  split
  · rename_i hlength
    have hword : Scan.u32 "truncated RPC integer" b 8 = .ok (load (slice b 8 4)) := by
      unfold header at hlength
      rw [← lift_u32, lift_eq_ok, u32, need_of (by omega)]
      rfl
    rw [peek_of_le (hlength.trans' (by decide)), ok_bind, hword, ok_bind, lift_bind, lift_need]
    refine demand_bind_congr fun _ => ?_
    rw [lift_bind, lift_need]
    refine demand_bind_congr fun _ => ?_
    rw [lift_bind, lift_need]
    refine demand_bind_congr fun _ => ?_
    split
    · rw [← lift_decode hlength]
      cases decode b <;> rfl
    · rfl
  · rfl

end Accesses

section Receiver

/-- What a client has read of a reply, and how much it asks for. -/
structure Receiver where
  /-- The bytes read so far. -/
  reply : Bytes
  /-- The size of the reply as far as it is known. -/
  target : ℕ

/-- The client after a call of `recv`. -/
def Receiver.receive (r : Receiver) (chunk : Bytes) : Except String Receiver := do
  need (chunk ≠ []) "truncated RPC reply"
  let reply := r.reply ++ chunk
  if reply.length = header then
    need (slice reply 0 8 = ascii "FFRSP001") "unsupported RPC reply"
    let length ← u32 reply 8
    need (4 ≤ length ∧ length ≤ limit) "invalid RPC reply length"
    return ⟨reply, header + length⟩
  else return ⟨reply, r.target⟩

/-- The calls of `recv`, of which each is offered a number of bytes. Without more offers the
client times out. -/
def Receiver.run (stream : Bytes) : List ℕ → Receiver → Except String Receiver
  | [], r => if r.reply.length < r.target then .error "RPC timeout" else .ok r
  | n :: offers, r =>
    if r.reply.length < r.target then do
      let r ← r.receive (slice stream r.reply.length
        (min n (min recvSize (r.target - r.reply.length))))
      run stream offers r
    else .ok r

/-- What a client returns or throws. -/
inductive Answer where
  /-- The value of a request. -/
  | value (value : Bytes)
  /-- An exception. -/
  | thrown (message : Bytes)
  /-- An exception with a POSIX code. -/
  | posix (code : ℕ) (message : Bytes)
  deriving DecidableEq

/-- The answer of a reply. -/
def Answer.of (code : ℕ) (value : Bytes) : Answer :=
  if 1 < code then .posix (code - 1) value
  else if code ≠ 0 then .thrown value
  else .value value

/-- The answer to a request, whose reply arrives in parts. -/
def answer (stream : Bytes) (offers : List ℕ) : Except String Answer := do
  let r ← Receiver.run stream offers ⟨[], header⟩
  let code ← u32 r.reply header
  need (code ≤ 4096) "invalid RPC result code"
  return Answer.of code (r.reply.drop (header + 4))

/-- Codes and values can be told from the answer. -/
theorem Answer.of_injective {code code' : ℕ} {value value' : Bytes}
    (h : Answer.of code value = Answer.of code' value') : code = code' ∧ value = value' := by
  unfold Answer.of at h
  split at h <;> split at h <;> (try split at h) <;> (try split at h) <;> simp_all <;> omega

end Receiver

section Replies

variable {code : ℕ} {value : Bytes}

/-- The bytes of a reply. -/
def replyBytes (code : ℕ) (value : Bytes) : Bytes :=
  ascii "FFRSP001" ++ (store (store code 4 ++ value).length 4 ++ (store code 4 ++ value))

theorem response_eq_ok (hsize : 4 + value.length ≤ limit) :
    response code value = .ok (replyBytes code value) := by
  rw [response, frame, need_of (by simpa using hsize)]
  rfl

theorem length_replyBytes (code : ℕ) (value : Bytes) :
    (replyBytes code value).length = header + (4 + value.length) := by
  have hmagic : (ascii "FFRSP001").length = 8 := by decide
  simp only [replyBytes, header, List.length_append, hmagic, length_store]
  omega

/-- The header of a reply. -/
theorem slice_replyBytes (code : ℕ) (hsize : 4 + value.length ≤ limit) :
    slice (replyBytes code value) 0 8 = ascii "FFRSP001" ∧
      load (slice (replyBytes code value) 8 4) = 4 + value.length := by
  have hmagic : (ascii "FFRSP001").length = 8 := by decide
  refine ⟨slice_append_self hmagic, ?_⟩
  rw [replyBytes, slice_append_right hmagic.le, hmagic, slice_append_self (length_store _ _),
    load_store_of_lt]
  · simp
  · unfold limit at hsize
    simp
    omega

/-- A client that has read a number of bytes of a stream. -/
def Receiver.upTo (stream : Bytes) (k : ℕ) : Receiver :=
  ⟨stream.take k, if k < header then header else stream.length⟩

theorem Receiver.target_upTo_le {stream : Bytes} (h : header ≤ stream.length) (k : ℕ) :
    (Receiver.upTo stream k).target ≤ stream.length := by
  unfold Receiver.upTo
  split
  · exact h
  · exact le_rfl

/-- A client that asks for no more has read everything. -/
theorem Receiver.le_of_target {stream : Bytes} {k : ℕ} (h : ¬ k < (Receiver.upTo stream k).target) :
    stream.length ≤ k := by
  unfold Receiver.upTo at h
  dsimp only at h
  split at h
  · contradiction
  · omega

/-- When the header is complete, the client knows the size of the reply. -/
theorem receive_header (hsize : 4 + value.length ≤ limit) :
    (do
      need (slice ((replyBytes code value).take header) 0 8 = ascii "FFRSP001") "unsupported RPC reply"
      let length ← u32 ((replyBytes code value).take header) 8
      need (4 ≤ length ∧ length ≤ limit) "invalid RPC reply length"
      return (⟨(replyBytes code value).take header, header + length⟩ : Receiver)) =
      .ok (Receiver.upTo (replyBytes code value) header) := by
  have hlength := length_replyBytes code value
  obtain ⟨hmagic, hcount⟩ := slice_replyBytes code hsize
  have hfield {i w : ℕ} (hin : i + w ≤ header) :
      slice ((replyBytes code value).take header) i w = slice (replyBytes code value) i w := by
    have hslice : slice (slice (replyBytes code value) 0 header) i w = _ := slice_slice hin
    rw [Nat.zero_add] at hslice
    exact hslice
  have htake : ((replyBytes code value).take header).length = header := by
    rw [List.length_take]
    omega
  have hword : u32 ((replyBytes code value).take header) 8 = .ok (4 + value.length) := by
    rw [u32, htake, need_of (by decide), ok_bind, hfield (by decide), hcount]
    rfl
  rw [hfield (by decide), need_of hmagic, ok_bind, hword, ok_bind, need_of ⟨by omega, hsize⟩, ok_bind,
    ← hlength]
  rfl

/-- A part of a reply takes the client further. -/
theorem receive_upTo (hsize : 4 + value.length ≤ limit) {k m : ℕ} (hm : 0 < m)
    (hend : k + m ≤ (Receiver.upTo (replyBytes code value) k).target) :
    (Receiver.upTo (replyBytes code value) k).receive (slice (replyBytes code value) k m) =
      .ok (Receiver.upTo (replyBytes code value) (k + m)) := by
  have hlength := length_replyBytes code value
  have hin : k + m ≤ (replyBytes code value).length :=
    hend.trans (Receiver.target_upTo_le (by omega) k)
  have hchunk : slice (replyBytes code value) k m ≠ [] := by
    intro hnil
    have hzero := congrArg List.length hnil
    rw [length_slice_of_le hin, List.length_nil] at hzero
    omega
  have hreply : (Receiver.upTo (replyBytes code value) k).reply ++ slice (replyBytes code value) k m =
      (replyBytes code value).take (k + m) := List.take_add.symm
  rw [Receiver.receive, need_of hchunk, ok_bind, hreply]
  dsimp only
  rw [List.length_take, min_eq_left hin]
  split
  · rename_i hheader
    rw [hheader]
    exact receive_header hsize
  · rename_i hheader
    unfold Receiver.upTo at hend ⊢
    by_cases hk : k < header
    · have hk' : k + m < header := by
        dsimp only at hend
        rw [if_pos hk] at hend
        omega
      rw [if_pos hk, if_pos hk']
      rfl
    · rw [if_neg hk, if_neg (by omega)]
      rfl

/-- With enough calls, each of which is offered something, the client reads the reply. -/
theorem run_upTo (hsize : 4 + value.length ≤ limit) {offers : List ℕ} (hoffers : ∀ n ∈ offers, 0 < n)
    {k : ℕ} (hk : k ≤ (replyBytes code value).length)
    (hmany : (replyBytes code value).length ≤ k + offers.length) :
    Receiver.run (replyBytes code value) offers (Receiver.upTo (replyBytes code value) k) =
      .ok (Receiver.upTo (replyBytes code value) (replyBytes code value).length) := by
  have hlength := length_replyBytes code value
  have htake (k : ℕ) (hk : k ≤ (replyBytes code value).length) :
      (Receiver.upTo (replyBytes code value) k).reply.length = k := by
    rw [Receiver.upTo, List.length_take, min_eq_left hk]
  induction offers generalizing k with
  | nil =>
    rw [List.length_nil, Nat.add_zero] at hmany
    obtain rfl : k = (replyBytes code value).length := by omega
    have htarget : (Receiver.upTo (replyBytes code value) _).target ≤ _ :=
      Receiver.target_upTo_le (by omega) (replyBytes code value).length
    rw [Receiver.run, htake _ hk, if_neg (by omega)]
  | cons n offers ih =>
    rw [Receiver.run, htake _ hk]
    split
    · rename_i hlt
      have hn := hoffers n List.mem_cons_self
      have htarget : (Receiver.upTo (replyBytes code value) k).target ≤ _ :=
        Receiver.target_upTo_le (by omega) k
      have hpos : 0 < min n (min recvSize ((Receiver.upTo (replyBytes code value) k).target - k)) := by
        have hrecv : 0 < recvSize := by decide
        omega
      rw [receive_upTo hsize hpos (by omega), ok_bind]
      rw [List.length_cons] at hmany
      exact ih (fun n hn => hoffers n (List.mem_cons_of_mem _ hn)) (by omega) (by omega)
    · rename_i hlt
      obtain rfl : k = (replyBytes code value).length := 
        le_antisymm hk (Receiver.le_of_target hlt)
      rfl

/-- The reply of the server is the answer of the client. -/
theorem answer_replyBytes (hcode : code ≤ 4096) (hsize : 4 + value.length ≤ limit) {offers : List ℕ}
    (hoffers : ∀ n ∈ offers, 0 < n) (hmany : (replyBytes code value).length ≤ offers.length) :
    answer (replyBytes code value) offers = .ok (Answer.of code value) := by
  have hlength := length_replyBytes code value
  have hrun : Receiver.run (replyBytes code value) offers (Receiver.upTo (replyBytes code value) 0) = _ :=
    run_upTo hsize hoffers (Nat.zero_le _) (by omega)
  have hword : (store code 4 ++ value).length < 256 ^ 4 := by
    rw [List.length_append, length_store]
    unfold limit at hsize
    omega
  have hdrop : (replyBytes code value).drop header = store code 4 ++ value := by
    rw [replyBytes, ← List.append_assoc]
    exact List.drop_left' (by rw [List.length_append, length_store]; rfl)
  have hcode' : u32 (replyBytes code value) header = .ok code :=
    (u32_eq_ok (by omega)).mpr ⟨by omega, value, hdrop⟩
  have hvalue : (replyBytes code value).drop (header + 4) = value := by
    rw [← List.drop_drop, hdrop]
    exact List.drop_left' (length_store _ _)
  have hreply : (Receiver.upTo (replyBytes code value) (replyBytes code value).length).reply =
      replyBytes code value := List.take_length
  change (Receiver.run (replyBytes code value) offers (Receiver.upTo (replyBytes code value) 0) >>= _) = _
  rw [hrun, ok_bind, hreply, hcode', ok_bind, need_of hcode, ok_bind, hvalue]
  rfl

/-- The server waits for more only before a frame is complete. -/
theorem accept_of_complete {b : Bytes} (hheader : header ≤ b.length)
    (hlength : header + load (slice b 8 4) ≤ b.length) : accept b ≠ .ok none := by
  intro h
  rw [accept, if_pos hheader, need_bind_eq_ok] at h
  obtain ⟨-, h⟩ := h
  obtain ⟨-, h⟩ := need_bind_eq_ok.mp h
  obtain ⟨hle, h⟩ := need_bind_eq_ok.mp h
  rw [if_pos (by omega)] at h
  obtain ⟨fields, -, h⟩ := bind_eq_ok.mp h
  cases h

/-- The codecs of clients and servers are inverse to each other. -/
structure CodecsInverse : Prop where
  /-- What a client sends is decoded. -/
  request : ∀ fields : List Bytes, 0 < fields.length → fields.length ≤ 16 →
    (payload fields).length ≤ limit → ∃ b, requestFrame fields = .ok b ∧ accept b = .ok (some fields)
  /-- Nothing else is. -/
  only : ∀ b fields, accept b = .ok (some fields) → requestFrame fields = .ok b
  /-- Other strings are rejected when they have the length that they announce. -/
  rejected : ∀ b, (∀ fields, requestFrame fields ≠ .ok b) → header ≤ b.length →
    header + load (slice b 8 4) ≤ b.length → ∃ message, accept b = .error message
  /-- No access is outside what was read. -/
  safe : ∀ b, scanFrame b = lift (accept b)
  /-- A reply is recovered, in whatever parts it arrives. -/
  reply : ∀ code value, code ≤ 4096 → 4 + value.length ≤ limit → ∃ b, response code value = .ok b ∧
    ∀ offers : List ℕ, (∀ n ∈ offers, 0 < n) → b.length ≤ offers.length →
      answer b offers = .ok (Answer.of code value)
  /-- Code and value can be told from the answer. -/
  injective : ∀ code code' value value', Answer.of code value = Answer.of code' value' →
    code = code' ∧ value = value'

theorem rpcCodecs_inverse : CodecsInverse where
  request := by
    intro fields hpos hcount hsize
    have hframe : IsFrame (request fields) fields := ⟨rfl, hpos, hcount, hsize⟩
    exact ⟨_, requestFrame_eq_ok.mpr hframe, accept_eq_some_iff.mpr hframe⟩
  only := fun b fields h => requestFrame_eq_ok.mpr (accept_eq_some_iff.mp h)
  rejected := by
    intro b hnone hheader hlength
    cases hb : accept b with
    | error message => exact ⟨message, rfl⟩
    | ok result =>
      cases result with
      | none => exact absurd hb (accept_of_complete hheader hlength)
      | some fields => exact absurd (requestFrame_eq_ok.mpr (accept_eq_some_iff.mp hb)) (hnone fields)
  safe := scanFrame_eq
  reply := by
    intro code value hcode hsize
    exact ⟨_, response_eq_ok hsize, fun offers hoffers hmany =>
      answer_replyBytes hcode hsize hoffers hmany⟩
  injective := fun _ _ _ _ h => Answer.of_injective h

end Replies

end ForkFs.Rpc
