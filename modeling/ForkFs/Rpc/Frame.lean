import ForkFs.Basic
import Mathlib.Data.List.Infix

/-!
# Request frames and the receive loop

A client sends one frame: the magic, the length of the payload and the payload, which holds
1 to 16 length-prefixed fields. The server appends every received chunk to what it has read
of the connection and judges the whole: a bad header or extra bytes are answered with an
error, a complete frame is decoded and dispatched, and after a reply nothing more is read.

The judgement is made after every chunk. A frame that is followed by other bytes is
therefore refused when both arrive together, and dispatched when a chunk ends with the
frame. On all other streams the chunks do not matter.
-/

namespace ForkFs.Rpc

open Bytes

/-- The largest payload of a request or a reply. -/
def limit : ℕ := 1024 * 1024

/-- The magic and the payload length. -/
def header : ℕ := 12

/-- The most bytes that one call of `recv` returns. -/
def recvSize : ℕ := 16384

/-- A little-endian number inside the request. -/
def u32 (b : Bytes) (start : ℕ) : Except String ℕ := do
  need (start ≤ b.length ∧ 4 ≤ b.length - start) "truncated RPC integer"
  pure (load (slice b start 4))

/-- The fields that start at an offset, and where they end. -/
def decodeFields (b : Bytes) : ℕ → ℕ → Except String (List Bytes × ℕ)
  | 0, start => pure ([], start)
  | count + 1, start => do
    let n ← u32 b start
    need (n ≤ b.length - (start + 4)) "truncated RPC field"
    let (fields, stop) ← decodeFields b count (start + 4 + n)
    pure (slice b (start + 4) n :: fields, stop)

/-- The fields of a frame. -/
def decode (b : Bytes) : Except String (List Bytes) := do
  let count ← u32 b header
  need (0 < count ∧ count ≤ 16) "RPC requires 1..16 fields"
  let (fields, stop) ← decodeFields b count (header + 4)
  need (stop = b.length) "trailing RPC bytes"
  pure fields

/-- The judgement of what was read so far: an error, a request, or nothing yet. -/
def accept (b : Bytes) : Except String (Option (List Bytes)) := do
  if header ≤ b.length then
    need (slice b 0 8 = ascii "FFRPC001") "unsupported RPC protocol"
    let length := load (slice b 8 4)
    need (4 ≤ length ∧ length ≤ limit) "invalid RPC request length"
    need (b.length ≤ header + length) "trailing RPC frame"
    if b.length = header + length then
      let fields ← decode b
      pure (some fields)
    else pure none
  else pure none

/-- A reply: zero and a result, or an error code and a message. -/
structure Reply where
  /-- Zero for a result, one more than a POSIX code for an error. -/
  code : ℕ
  /-- The result or the message. -/
  value : Bytes
  deriving DecidableEq, Repr

/-- The frame of a reply. -/
def Reply.encode (r : Reply) : Bytes :=
  ascii "FFRSP001" ++ store (4 + r.value.length) 4 ++ store r.code 4 ++ r.value

/-! ## Failures of a request -/

/-- A failed request: an error with a POSIX code, or another exception. -/
inductive Failure where
  /-- `RpcError`. -/
  | rpc (code : ℕ) (message : String)
  /-- Any other exception. -/
  | other (message : String)
  deriving DecidableEq, Repr

/-- Whether a message contains a text. -/
def mentions (message text : String) : Bool := decide (ascii text <:+: ascii message)

/-- The POSIX code of a message, with the numbers of Linux. -/
def rpcPosixError (message : String) : ℕ :=
  if message = "RPC timeout" then 110
  else if message ∈ ["RPC connect failed", "RPC connection failed", "RPC send failed",
      "truncated RPC reply"] then 107
  else if message = "object root not found" then 2
  else if message = "path exceeds mount protocol limit" then 36
  else if message = "path not found" ∨ message = "source not found" then 2
  else if mentions message "invalid stale" ∨ mentions message "invalid mount view" then 116
  else if message = "inode is no longer linked" ∨ mentions message "invalid or expired session" ∨
      mentions message "invalid file handle" then 116
  else if mentions message "already exists" then 17
  else if mentions message "busy" ∨ mentions message "outstanding handles" then 16
  else if mentions message "not empty" then 39
  else if mentions message "not a directory" then 20
  else if mentions message "cannot read a directory" then 21
  else if mentions message "read-only" then 30
  else if mentions message "256 KiB" then 27
  else if mentions message "too many symbolic links" then 40
  else if mentions message "handle limit" ∨ mentions message "cursor limit" then 24
  else if mentions message "not readable" ∨ mentions message "not writable" then 9
  else if mentions message "unsupported" then 95
  else if ["NUL", "printable ASCII", "path must", "invalid", "forbidden", "inode types differ",
      "cannot move"].any (mentions message) then 22
  else 5

/-! ## One connection -/

/-- What the server has read of a connection, and the reply it has queued. -/
structure Peer where
  /-- The bytes read so far. -/
  input : Bytes
  /-- The reply, once there is one. -/
  out : Option Reply
  deriving DecidableEq, Repr

section Receive

variable {S : Type} (dispatch : S → List Bytes → Except Failure Bytes × S)

/-- The result of a request as a reply. A request whose first field starts with `inode-` turns
every exception into a POSIX code. -/
def reply (fields : List Bytes) (outcome : Except Failure Bytes) : Reply :=
  let checked : Except Failure Bytes :=
    match outcome with
    | .ok value =>
      if 4 + value.length ≤ limit then .ok value else .error (.other "RPC payload exceeds 1 MiB")
    | .error e => .error e
  match checked with
  | .ok value => ⟨0, value⟩
  | .error (.rpc code message) => ⟨code + 1, ascii message⟩
  | .error (.other message) =>
    if ascii "inode-" <+: fields.headD [] then ⟨rpcPosixError message + 1, ascii message⟩
    else ⟨1, ascii message⟩

/-- The server and one of its connections, with the requests dispatched on it. -/
structure Exchange (S : Type) where
  /-- The repository and the sessions. -/
  state : S
  /-- The connection. -/
  peer : Peer
  /-- The requests that were dispatched, in order. -/
  dispatched : List (List Bytes)

/-- A new connection. -/
def Exchange.start (s : S) : Exchange S := ⟨s, ⟨[], none⟩, []⟩

/-- One call of `recv` on a connection without a queued reply. An empty chunk is the end of
the stream. -/
def recv (x : Exchange S) (chunk : Bytes) : Exchange S :=
  match x.peer.out with
  | some _ => x
  | none =>
    if chunk = [] then { x with peer.out := some ⟨1, ascii "truncated RPC request"⟩ }
    else
      let input := x.peer.input ++ chunk
      match accept input with
      | .error e => { x with peer := ⟨input, some ⟨1, ascii e⟩⟩ }
      | .ok none => { x with peer.input := input }
      | .ok (some fields) =>
        let (outcome, state) := dispatch x.state fields
        ⟨state, ⟨input, some (reply fields outcome)⟩, x.dispatched ++ [fields]⟩

/-- The requests dispatched for a stream that arrives in the given chunks and then ends. -/
def serve (s : S) (chunks : List Bytes) : List (List Bytes) :=
  ((chunks ++ [[]]).foldl (recv dispatch) (Exchange.start s)).dispatched

end Receive

/-! ## Frames -/

/-- The fields as a frame holds them. -/
def encodeFields (fields : List Bytes) : Bytes := fields.flatMap fun f => store f.length 4 ++ f

/-- The payload of a request. -/
def payload (fields : List Bytes) : Bytes := store fields.length 4 ++ encodeFields fields

/-- The frame of a request, as a client builds it. -/
def request (fields : List Bytes) : Bytes :=
  ascii "FFRPC001" ++ (store (payload fields).length 4 ++ payload fields)

/-- A string is a well-formed frame with these fields. -/
structure IsFrame (b : Bytes) (fields : List Bytes) : Prop where
  /-- The string is the frame of the fields. -/
  eq : b = request fields
  /-- There is a field. -/
  pos : 0 < fields.length
  /-- There are at most 16 fields. -/
  count : fields.length ≤ 16
  /-- The payload keeps the limit. -/
  size : (payload fields).length ≤ limit

/-- A field of four bytes at the head of a string. -/
theorem load_take_eq {x : Bytes} {v : ℕ} :
    4 ≤ x.length ∧ load (x.take 4) = v ↔ v < 256 ^ 4 ∧ ∃ rest, x = store v 4 ++ rest := by
  constructor
  · rintro ⟨hlen, rfl⟩
    have htake : (x.take 4).length = 4 := by simp [hlen]
    have hstore := store_load (x.take 4)
    rw [htake] at hstore
    have hlt := load_lt (x.take 4)
    rw [htake] at hlt
    exact ⟨hlt, x.drop 4, by rw [hstore, List.take_append_drop]⟩
  · rintro ⟨hv, rest, rfl⟩
    have htake : (store v 4 ++ rest).take 4 = store v 4 := List.take_left' (length_store v 4)
    rw [htake, load_store_of_lt hv]
    simp

theorem u32_eq_ok {b : Bytes} {start v : ℕ} (hstart : start ≤ b.length) :
    u32 b start = .ok v ↔ v < 256 ^ 4 ∧ ∃ rest, b.drop start = store v 4 ++ rest := by
  unfold u32
  rw [need_bind_eq_ok, Outcome.pure_eq_ok, ← load_take_eq, List.length_drop]
  simp [hstart, slice]

/-- Decoding reads exactly the encoded fields. -/
theorem decodeFields_eq_ok {b : Bytes} {n start stop : ℕ} {fields : List Bytes}
    (hstart : start ≤ b.length) :
    decodeFields b n start = .ok (fields, stop) ↔
      fields.length = n ∧ (∀ f ∈ fields, f.length < 256 ^ 4) ∧
        stop = start + (encodeFields fields).length ∧
        ∃ rest, b.drop start = encodeFields fields ++ rest := by
  induction n generalizing start fields with
  | zero =>
    rw [decodeFields, Outcome.pure_eq_ok, Prod.mk.injEq, List.length_eq_zero_iff]
    constructor
    · rintro ⟨rfl, rfl⟩
      simp [encodeFields]
    · rintro ⟨rfl, -, rfl, -⟩
      exact ⟨rfl, rfl⟩
  | succ n ih =>
    rw [decodeFields, Outcome.bind_eq_ok]
    constructor
    · rintro ⟨v, hu, h⟩
      obtain ⟨hv, rest, hrest⟩ := (u32_eq_ok hstart).mp hu
      obtain ⟨hlen, h⟩ := need_bind_eq_ok.mp h
      obtain ⟨⟨more, stop'⟩, hmore, h⟩ := Outcome.bind_eq_ok.mp h
      obtain ⟨rfl, rfl⟩ := Prod.mk.inj (Outcome.pure_eq_ok.mp h)
      have hsize : b.length - start = 4 + rest.length := by
        have := congrArg List.length hrest
        simpa using this
      obtain ⟨hcount, hall, hstop, rest', hrest'⟩ := (ih (by omega)).mp hmore
      have hfour : b.drop (start + 4) = rest := by
        rw [← List.drop_drop, hrest]
        exact List.drop_left' (length_store v 4)
      have hfield : slice b (start + 4) v = rest.take v := by rw [slice, hfour]
      have hvlen : (rest.take v).length = v := by simp; omega
      have hnext : rest.drop v = encodeFields more ++ rest' := by
        rw [← hfour, List.drop_drop, hrest']
      rw [hfield]
      refine ⟨by simp [hcount], ?_, ?_, rest', ?_⟩
      · intro f hf
        rcases List.mem_cons.mp hf with rfl | hf
        · rwa [hvlen]
        · exact hall f hf
      · simp only [encodeFields, List.flatMap_cons, List.length_append, length_store, hvlen] at hstop ⊢
        omega
      · rw [encodeFields, List.flatMap_cons, hvlen, List.append_assoc, List.append_assoc, hrest]
        change _ = store v 4 ++ (rest.take v ++ (encodeFields more ++ rest'))
        rw [← hnext, List.take_append_drop]
    · rintro ⟨hcount, hall, hstop, rest, hrest⟩
      obtain ⟨f, more, rfl⟩ := List.exists_cons_of_length_eq_add_one hcount
      have hf : f.length < 256 ^ 4 := hall f (by simp)
      have hdrop : b.drop start = store f.length 4 ++ (f ++ (encodeFields more ++ rest)) := by
        rw [hrest]
        simp [encodeFields]
      have hsize : b.length - start =
          4 + (f.length + ((encodeFields more).length + rest.length)) := by
        have := congrArg List.length hdrop
        simpa using this
      have hfour : b.drop (start + 4) = f ++ (encodeFields more ++ rest) := by
        rw [← List.drop_drop, hdrop]
        exact List.drop_left' (length_store _ 4)
      have hmore : decodeFields b n (start + 4 + f.length) = .ok (more, stop) := by
        refine (ih (by omega)).mpr ⟨by simpa using hcount, fun g hg => hall g (by simp [hg]), ?_,
          rest, ?_⟩
        · rw [hstop]
          simp only [encodeFields, List.flatMap_cons, List.length_append, length_store]
          omega
        · rw [← List.drop_drop, hfour]
          exact List.drop_left' rfl
      refine ⟨f.length, (u32_eq_ok hstart).mpr ⟨hf, _, hdrop⟩, ?_⟩
      refine need_bind_eq_ok.mpr ⟨by omega, ?_⟩
      refine Outcome.bind_eq_ok.mpr ⟨_, hmore, ?_⟩
      have hslice : slice b (start + 4) f.length = f := by
        rw [slice, hfour]
        exact List.take_left' rfl
      simp [hslice, pure, Except.pure]

theorem length_magic : (ascii "FFRPC001").length = 8 := by decide

/-- The payload is the count and the fields. -/
theorem length_payload (fields : List Bytes) :
    (payload fields).length = 4 + (encodeFields fields).length := by
  simp [payload]

theorem length_request (fields : List Bytes) :
    (request fields).length = header + (payload fields).length := by
  simp only [request, header, List.length_append, length_magic, length_store]
  omega

theorem length_field_le {fields : List Bytes} {f : Bytes} (h : f ∈ fields) :
    f.length ≤ (encodeFields fields).length := by
  obtain ⟨front, back, rfl⟩ := List.append_of_mem h
  simp only [encodeFields, List.flatMap_append, List.flatMap_cons, List.length_append]
  omega

/-- Decoding succeeds exactly on the fields that follow the header. -/
theorem decode_eq_ok {b : Bytes} {fields : List Bytes} (hlen : header ≤ b.length) :
    decode b = .ok fields ↔ (0 < fields.length ∧ fields.length ≤ 16) ∧
      (∀ f ∈ fields, f.length < 256 ^ 4) ∧ b.drop header = payload fields := by
  rw [decode, Outcome.bind_eq_ok]
  constructor
  · rintro ⟨count, hcount, h⟩
    obtain ⟨-, rest, hrest⟩ := (u32_eq_ok hlen).mp hcount
    obtain ⟨hbound, h⟩ := need_bind_eq_ok.mp h
    obtain ⟨⟨fields', stop⟩, hfields, h⟩ := Outcome.bind_eq_ok.mp h
    obtain ⟨hstop, h⟩ := need_bind_eq_ok.mp h
    obtain rfl := Outcome.pure_eq_ok.mp h
    have hsize := congrArg List.length hrest
    simp only [List.length_drop, List.length_append, length_store] at hsize
    obtain ⟨rfl, hall, hend, tail, htail⟩ := (decodeFields_eq_ok (by omega)).mp hfields
    have hdrop : b.drop (header + 4) = rest := by
      rw [← List.drop_drop, hrest]
      exact List.drop_left' (length_store _ 4)
    have hnil : tail = [] := by
      have := congrArg List.length htail
      simp only [List.length_drop, List.length_append] at this
      exact List.length_eq_zero_iff.mp (by omega)
    refine ⟨hbound, hall, ?_⟩
    rw [hrest, ← hdrop, htail, hnil, List.append_nil, payload]
  · rintro ⟨hbound, hall, hdrop⟩
    have hsize := congrArg List.length hdrop
    rw [List.length_drop, length_payload] at hsize
    have hcount : fields.length < 256 ^ 4 := by omega
    refine ⟨fields.length, (u32_eq_ok hlen).mpr ⟨hcount, _, hdrop⟩, ?_⟩
    refine need_bind_eq_ok.mpr ⟨hbound, ?_⟩
    have hfields : decodeFields b fields.length (header + 4) = .ok (fields, b.length) := by
      refine (decodeFields_eq_ok (by omega)).mpr ⟨rfl, hall, by omega, [], ?_⟩
      rw [← List.drop_drop, hdrop, List.append_nil]
      exact List.drop_left' (length_store _ 4)
    rw [hfields, Outcome.ok_bind]
    exact need_bind_eq_ok.mpr ⟨rfl, rfl⟩

/-- A string with a valid header that announces the given payload. -/
structure Announces (b : Bytes) (length : ℕ) : Prop where
  /-- The header is complete. -/
  header_le : header ≤ b.length
  /-- The magic stands first. -/
  magic : slice b 0 8 = ascii "FFRPC001"
  /-- The length follows. -/
  announced : load (slice b 8 4) = length
  /-- The length is in range. -/
  range : 4 ≤ length ∧ length ≤ limit

/-- What was read is a request exactly if it is a well-formed frame. -/
theorem accept_eq_some {b : Bytes} {fields : List Bytes} :
    accept b = .ok (some fields) ↔
      ∃ length, Announces b length ∧ b.length = header + length ∧ decode b = .ok fields := by
  unfold accept
  split
  case isFalse hlen =>
    simp only [pure, Except.pure, Except.ok.injEq, reduceCtorEq, false_iff]
    rintro ⟨length, hannounced, -⟩
    exact hlen hannounced.header_le
  case isTrue hlen =>
    rw [need_bind_eq_ok]
    simp only [need_bind_eq_ok]
    constructor
    · rintro ⟨hmagic, hrange, hle, h⟩
      split at h
      · obtain ⟨fields', hfields, h⟩ := Outcome.bind_eq_ok.mp h
        obtain rfl := Option.some.inj (Outcome.pure_eq_ok.mp h)
        exact ⟨_, ⟨hlen, hmagic, rfl, hrange⟩, ‹_›, hfields⟩
      · simp [pure, Except.pure] at h
    · rintro ⟨length, ⟨-, hmagic, rfl, hrange⟩, hsize, hfields⟩
      refine ⟨hmagic, hrange, hsize.le, ?_⟩
      rw [if_pos hsize, hfields]
      rfl

/-- The header of a request announces its payload, also when only a part has arrived. -/
theorem announces_of_request {b rest : Bytes} {fields : List Bytes}
    (hb : b ++ rest = request fields) (hlen : header ≤ b.length)
    (hsize : (payload fields).length ≤ limit) : Announces b (payload fields).length := by
  have hlow : 4 ≤ (payload fields).length := by rw [length_payload]; omega
  have hslice (start n : ℕ) (h : start + n ≤ header) :
      slice b start n = slice (request fields) start n := by
    rw [← hb, slice_append_left (by omega)]
  refine ⟨hlen, ?_, ?_, hlow, hsize⟩
  · rw [hslice 0 8 (by decide), request]
    exact slice_append_self length_magic
  · rw [hslice 8 4 (by decide), request, slice_append_right (by rw [length_magic]), length_magic]
    rw [slice_append_self (length_store _ 4), load_store_of_lt]
    exact lt_of_le_of_lt hsize (by decide)

/-- What was read is dispatched exactly if it is a well-formed frame. -/
theorem accept_eq_some_iff {b : Bytes} {fields : List Bytes} :
    accept b = .ok (some fields) ↔ IsFrame b fields := by
  rw [accept_eq_some]
  constructor
  · rintro ⟨length, ⟨hlen, hmagic, rfl, hrange⟩, hsize, hfields⟩
    obtain ⟨⟨hpos, hcount⟩, -, hdrop⟩ := (decode_eq_ok hlen).mp hfields
    have hpayload : (payload fields).length = load (slice b 8 4) := by
      rw [← hdrop, List.length_drop]
      omega
    have hfour : (slice b 8 4).length = 4 := length_slice_of_le hlen
    have hstore := store_load (slice b 8 4)
    rw [hfour, ← hpayload] at hstore
    have hb : b = slice b 0 8 ++ (slice b 8 4 ++ b.drop header) := by
      have hparts := slice_append_slice b 0 8 4
      rw [← List.append_assoc, hparts, slice, List.drop_zero]
      exact (List.take_append_drop 12 b).symm
    refine ⟨?_, hpos, hcount, by rw [hpayload]; exact hrange.2⟩
    rw [request, hstore, ← hmagic, ← hdrop]
    exact hb
  · rintro ⟨rfl, hpos, hcount, hsize⟩
    have hlen : header ≤ (request fields).length := by rw [length_request]; omega
    refine ⟨_, announces_of_request (List.append_nil _) hlen hsize, length_request fields, ?_⟩
    refine (decode_eq_ok hlen).mpr ⟨⟨hpos, hcount⟩, ?_, ?_⟩
    · intro f hf
      have hle := length_field_le hf
      rw [length_payload] at hsize
      unfold limit at hsize
      omega
    · rw [request, ← List.append_assoc]
      exact List.drop_left' (by simp [length_magic, header])

/-- A frame that has arrived in part is waited for. -/
theorem accept_of_partial {b rest : Bytes} {fields : List Bytes} (hframe : IsFrame (b ++ rest) fields)
    (hrest : rest ≠ []) : accept b = .ok none := by
  have hshort : b.length < header + (payload fields).length := by
    have hsize := congrArg List.length hframe.eq
    rw [length_request, List.length_append] at hsize
    have := List.length_pos_iff.mpr hrest
    omega
  unfold accept
  split
  case isFalse => rfl
  case isTrue hlen =>
    obtain ⟨-, hmagic, hlength, hrange⟩ :=
      announces_of_request hframe.eq hlen hframe.size
    rw [need_of hmagic, Outcome.ok_bind]
    simp only [hlength]
    rw [need_of hrange, Outcome.ok_bind, need_of hshort.le, Outcome.ok_bind, if_neg hshort.ne]
    rfl

/-- A frame with bytes after it is not a frame. -/
theorem IsFrame.append_eq_nil {b rest : Bytes} {fields fields' : List Bytes}
    (h : IsFrame b fields) (h' : IsFrame (b ++ rest) fields') : rest = [] := by
  by_contra hrest
  have hwait := accept_of_partial h' hrest
  rw [accept_eq_some_iff.mpr h] at hwait
  cases hwait

/-! ## Chunks -/

/-- The chunks in which a stream may arrive. -/
structure Cut (stream : Bytes) (chunks : List Bytes) : Prop where
  /-- Together they are the stream. -/
  flatten : chunks.flatten = stream
  /-- No chunk is empty. -/
  ne_nil : ∀ c ∈ chunks, c ≠ []
  /-- A chunk fits the buffer. -/
  size : ∀ c ∈ chunks, c.length ≤ recvSize

section Serving

variable {S : Type} (dispatch : S → List Bytes → Except Failure Bytes × S)

/-- After a reply nothing is read. -/
theorem foldl_recv_of_out {x : Exchange S} (h : x.peer.out ≠ none) (chunks : List Bytes) :
    chunks.foldl (recv dispatch) x = x := by
  obtain ⟨r, hr⟩ := Option.ne_none_iff_exists'.mp h
  induction chunks with
  | nil => rfl
  | cons c chunks ih =>
    have hstep : recv dispatch x c = x := by simp [recv, hr]
    rw [List.foldl_cons, hstep, ih]

/-- One chunk that leaves the connection open adds its bytes; one that does not dispatches at
most one request, which is the frame read so far. -/
theorem recv_cases {x : Exchange S} (hout : x.peer.out = none) {c : Bytes} (hc : c ≠ []) :
    (accept (x.peer.input ++ c) = .ok none ∧
      recv dispatch x c = { x with peer := ⟨x.peer.input ++ c, none⟩ }) ∨
    ((recv dispatch x c).peer.out ≠ none ∧
      ((recv dispatch x c).dispatched = x.dispatched ∧
          (∀ fields, ¬ IsFrame (x.peer.input ++ c) fields) ∨
        ∃ fields, IsFrame (x.peer.input ++ c) fields ∧
          (recv dispatch x c).dispatched = x.dispatched ++ [fields])) := by
  unfold recv
  simp only [hout, if_neg hc]
  rcases hjudged : accept (x.peer.input ++ c) with e | _ | fields
  · right
    refine ⟨by simp, .inl ⟨rfl, ?_⟩⟩
    intro fields hframe
    rw [accept_eq_some_iff.mpr hframe] at hjudged
    cases hjudged
  · left
    simp
  · right
    exact ⟨by simp, .inr ⟨fields, accept_eq_some_iff.mp hjudged, rfl⟩⟩

/-- A frame at the end of a chunk is dispatched, whatever follows. -/
theorem foldl_recv_frame {fields : List Bytes} (chunks more : List Bytes) {x : Exchange S}
    (hout : x.peer.out = none) (hne : ∀ c ∈ chunks, c ≠ []) (hchunks : chunks ≠ [])
    (hframe : IsFrame (x.peer.input ++ chunks.flatten) fields) :
    ((chunks ++ more).foldl (recv dispatch) x).dispatched = x.dispatched ++ [fields] := by
  induction chunks generalizing x with
  | nil => exact absurd rfl hchunks
  | cons c chunks ih =>
    have hc : c ≠ [] := hne c (by simp)
    rw [List.flatten_cons, ← List.append_assoc] at hframe
    rw [List.cons_append, List.foldl_cons]
    by_cases hlast : chunks = []
    · subst hlast
      rw [List.flatten_nil, List.append_nil] at hframe
      rcases recv_cases dispatch hout hc with ⟨hwait, -⟩ | ⟨hreply, ⟨-, hnot⟩ | ⟨fields', h', hd⟩⟩
      · rw [accept_eq_some_iff.mpr hframe] at hwait
        cases hwait
      · exact absurd hframe (hnot fields)
      · have heq : fields' = fields := by
          have h := accept_eq_some_iff.mpr h'
          rw [accept_eq_some_iff.mpr hframe] at h
          cases h
          rfl
        rw [foldl_recv_of_out dispatch hreply, hd, heq]
    · have hmore : chunks.flatten ≠ [] := by
        obtain ⟨d, rest, rfl⟩ := List.exists_cons_of_ne_nil hlast
        have hd : d ≠ [] := hne d (by simp)
        simp [hd]
      have hwait := accept_of_partial hframe hmore
      have hstep : recv dispatch x c = { x with peer := ⟨x.peer.input ++ c, none⟩ } := by
        unfold recv
        simp [hout, hc, hwait]
      rw [hstep]
      exact ih rfl (fun d hd => hne d (by simp [hd])) hlast hframe

/-- What is dispatched is a frame that ends with one of the chunks. -/
theorem foldl_recv_cases (chunks : List Bytes) {x : Exchange S} (hout : x.peer.out = none)
    (hne : ∀ c ∈ chunks, c ≠ []) :
    ((chunks ++ [[]]).foldl (recv dispatch) x).dispatched = x.dispatched ∨
      ∃ front back fields, chunks = front ++ back ∧ IsFrame (x.peer.input ++ front.flatten) fields ∧
        ((chunks ++ [[]]).foldl (recv dispatch) x).dispatched = x.dispatched ++ [fields] := by
  induction chunks generalizing x with
  | nil =>
    left
    simp [recv, hout]
  | cons c chunks ih =>
    have hc : c ≠ [] := hne c (by simp)
    rw [List.cons_append, List.foldl_cons]
    rcases recv_cases dispatch hout hc with ⟨-, hstep⟩ | ⟨hreply, ⟨hd, -⟩ | ⟨fields, hframe, hd⟩⟩
    · rw [hstep]
      rcases ih (x := { x with peer := ⟨x.peer.input ++ c, none⟩ }) rfl
        (fun d hd => hne d (by simp [hd])) with h | ⟨front, back, fields, rfl, hframe, h⟩
      · exact .inl h
      · refine .inr ⟨c :: front, back, fields, rfl, ?_, h⟩
        rw [List.flatten_cons, ← List.append_assoc]
        exact hframe
    · rw [foldl_recv_of_out dispatch hreply]
      exact .inl hd
    · rw [foldl_recv_of_out dispatch hreply]
      exact .inr ⟨[c], chunks, fields, rfl, by simpa using hframe, hd⟩

/-- Every stream can arrive byte by byte. -/
theorem cut_bytes (stream : Bytes) : Cut stream (stream.map fun b => [b]) where
  flatten := by
    induction stream with
    | nil => rfl
    | cons b stream ih => simp [ih]
  ne_nil := by simp
  size := by simp [recvSize]

theorem Cut.append {stream stream' : Bytes} {chunks chunks' : List Bytes} (h : Cut stream chunks)
    (h' : Cut stream' chunks') : Cut (stream ++ stream') (chunks ++ chunks') where
  flatten := by rw [List.flatten_append, h.flatten, h'.flatten]
  ne_nil c hc := (List.mem_append.mp hc).elim (h.ne_nil c) (h'.ne_nil c)
  size c hc := (List.mem_append.mp hc).elim (h.size c) (h'.size c)

/-- A stream that starts with a frame is dispatched when a chunk ends with the frame. -/
theorem serve_of_frame (s : S) {stream : Bytes} {chunks : List Bytes} (more : List Bytes)
    {fields : List Bytes} (hcut : Cut stream chunks) (hframe : IsFrame stream fields) :
    serve dispatch s (chunks ++ more) = [fields] := by
  have hchunks : chunks ≠ [] := by
    rintro rfl
    have hsize := congrArg List.length (hcut.flatten.trans hframe.eq)
    rw [length_request, List.flatten_nil, List.length_nil, header] at hsize
    omega
  rw [serve, List.append_assoc]
  refine foldl_recv_frame dispatch chunks (more ++ [[]]) (x := Exchange.start s) rfl hcut.ne_nil hchunks ?_
  rw [hcut.flatten]
  exact hframe

/-- Without a frame among its proper beginnings, a stream is dispatched exactly if it is a
frame. -/
theorem serve_cases (s : S) {stream : Bytes} {chunks : List Bytes} (hcut : Cut stream chunks)
    (hproper : ∀ front rest fields, stream = front ++ rest → rest ≠ [] → ¬ IsFrame front fields) :
    (∃ fields, IsFrame stream fields ∧ serve dispatch s chunks = [fields]) ∨
      (∀ fields, ¬ IsFrame stream fields) ∧ serve dispatch s chunks = [] := by
  by_cases hframe : ∃ fields, IsFrame stream fields
  · obtain ⟨fields, hframe⟩ := hframe
    refine .inl ⟨fields, hframe, ?_⟩
    have h := serve_of_frame dispatch s [] hcut hframe
    rwa [List.append_nil] at h
  · refine .inr ⟨fun fields h => hframe ⟨fields, h⟩, ?_⟩
    rcases foldl_recv_cases dispatch chunks (x := Exchange.start s) rfl hcut.ne_nil with
      h | ⟨front, back, fields, rfl, hfront, -⟩
    · exact h
    · have hstream : stream = front.flatten ++ back.flatten := by
        rw [← hcut.flatten, List.flatten_append]
      by_cases hback : back.flatten = []
      · rw [hback, List.append_nil] at hstream
        exact absurd ⟨fields, hstream ▸ hfront⟩ hframe
      · exact absurd hfront (hproper _ _ fields hstream hback)

/-- The decision about a stream does not depend on its chunks: every way of cutting it
dispatches the same requests, at most one, and none unless the stream is a frame. -/
def ChunkFree (s : S) (stream : Bytes) : Prop :=
  (∀ chunks chunks', Cut stream chunks → Cut stream chunks' →
    serve dispatch s chunks = serve dispatch s chunks') ∧
  ∀ chunks, Cut stream chunks → (serve dispatch s chunks).length ≤ 1 ∧
    ∀ fields ∈ serve dispatch s chunks, IsFrame stream fields

/-- The chunks of a stream do not matter exactly if no frame ends before the stream does. -/
theorem chunkFree_iff (s : S) (stream : Bytes) :
    ChunkFree dispatch s stream ↔
      ∀ front rest fields, stream = front ++ rest → rest ≠ [] → ¬ IsFrame front fields := by
  constructor
  · rintro ⟨-, hframe⟩ front rest fields rfl hrest hfront
    have hcut := (cut_bytes front).append (cut_bytes rest)
    have hserve := serve_of_frame dispatch s (rest.map fun b => [b]) (cut_bytes front) hfront
    have hall := (hframe _ hcut).2 fields (by rw [hserve]; simp)
    exact hrest (hfront.append_eq_nil hall)
  · intro hproper
    refine ⟨fun chunks chunks' hcut hcut' => ?_, fun chunks hcut => ?_⟩
    · rcases serve_cases dispatch s hcut hproper with ⟨fields, hframe, h⟩ | ⟨hnot, h⟩
      · have h' := serve_of_frame dispatch s [] hcut' hframe
        rw [h, ← h', List.append_nil]
      · rcases serve_cases dispatch s hcut' hproper with ⟨fields, hframe, -⟩ | ⟨-, h'⟩
        · exact absurd hframe (hnot fields)
        · rw [h, h']
    · rcases serve_cases dispatch s hcut hproper with ⟨fields, hframe, h⟩ | ⟨-, h⟩
      · rw [h]
        simpa using hframe
      · simp [h]

end Serving

/-- A `status` request that is followed by other bytes is dispatched when the first chunk ends
with the frame, and refused when the two arrive together. -/
theorem trailing_bytes_dispatched :
    let stream := request [ascii "status"] ++ ascii "extra"
    let chunks := [request [ascii "status"], ascii "extra"]
    (∀ fields, ¬ IsFrame stream fields) ∧ Cut stream chunks ∧ Cut stream [stream] ∧
      ∀ (S : Type) (dispatch : S → List Bytes → Except Failure Bytes × S) (s : S),
        serve dispatch s chunks = [[ascii "status"]] ∧ serve dispatch s [stream] = [] ∧
          ¬ ChunkFree dispatch s stream := by
  intro stream chunks
  have hframe : IsFrame (request [ascii "status"]) [ascii "status"] :=
    ⟨rfl, by decide, by decide, by decide⟩
  have hnot (fields : List Bytes) : ¬ IsFrame stream fields := fun h =>
    absurd (hframe.append_eq_nil h) (by decide)
  have hcut : Cut stream chunks := ⟨by decide, by decide, by decide⟩
  have hserve {S : Type} (dispatch : S → List Bytes → Except Failure Bytes × S) (s : S) :
      serve dispatch s chunks = [[ascii "status"]] := by
    have hfirst : Cut (request [ascii "status"]) [request [ascii "status"]] :=
      ⟨by decide, by decide, by decide⟩
    exact serve_of_frame dispatch s [ascii "extra"] hfirst hframe
  refine ⟨hnot, hcut, ⟨by decide, by decide, by decide⟩, fun S dispatch s =>
    ⟨hserve dispatch s, ?_, fun h => ?_⟩⟩
  · have hwait : accept stream ≠ .ok none := by decide
    rw [serve, List.cons_append, List.foldl_cons]
    rcases recv_cases dispatch (x := Exchange.start s) rfl (c := stream) (by decide) with
      ⟨h, -⟩ | ⟨hreply, ⟨hd, -⟩ | ⟨fields, h, -⟩⟩
    · exact absurd h hwait
    · rw [foldl_recv_of_out dispatch hreply, hd]
      rfl
    · exact absurd h (hnot fields)
  · have hall := (h.2 chunks hcut).2 [ascii "status"] (by rw [hserve]; simp)
    exact hnot _ hall

end ForkFs.Rpc
