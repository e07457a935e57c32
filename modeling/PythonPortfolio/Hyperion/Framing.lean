import PythonPortfolio.Library.Loop
import PythonPortfolio.Library.SelfDelimiting
import PythonPortfolio.Hyperion.Server

/-!
# The frames of a connection

`handle_client` reads a header, then as many bytes as it declares, hands both to
`process_command` and writes the answer behind its length, until the header is
missing, wrong or too large, or the payload is cut short. The reader is the list of
bytes that still arrive before the end of the stream; the peer takes what is
written. The commands of other connections may run between two of this one, so
`process_command` acts on a state of the world that is a parameter. The counters of
the telemetry are left out.
-/

namespace PythonPortfolio.Hyperion

open Library Library.BigEndian

/-- `BinaryMessage.MAGIC`. -/
def magic : Bytes := ascii "HPRS"

/-- `BinaryMessage.HEADER_SIZE`. -/
def headerSize : Nat := 12

/-- `MAX_PACKET_SIZE`. -/
def maxPacketSize : Nat := 32 * 1024 * 1024

/-- What `HEADER_STRUCT` unpacks, `!4sHBBI`. -/
structure Header where
  magic : Bytes
  msgType : Nat
  flags : Nat
  reserved : Nat
  payloadLen : Nat

def Header.unpack (data : Bytes) : Header where
  magic := data.take 4
  msgType := ofBytes ((data.drop 4).take 2)
  flags := ofBytes ((data.drop 6).take 1)
  reserved := ofBytes ((data.drop 7).take 1)
  payloadLen := ofBytes ((data.drop 8).take 4)

/-- `reader.readexactly(n)`, with what the reader holds afterwards; `none` is the
`IncompleteReadError`. -/
def readExactly (n : Nat) (stream : Bytes) : Option (Bytes × Bytes) :=
  if n ≤ stream.length then some (stream.take n, stream.drop n) else none

/-- A connection: the bytes to come, the world, the calls of `process_command`, the
bytes written and `ctx.request_count`. -/
structure Connection (σ : Type) where
  stream : Bytes
  world : σ
  calls : List (Nat × Bytes)
  written : Bytes
  requestCount : Nat

section Client

variable {σ : Type}

/-- The answer behind its length; `struct.error` leaves the loop. -/
def respond (c : Connection σ) (responsePayload : Bytes) :
    Pass (Connection σ) (Connection σ) :=
  (packUInt 4 responsePayload.length).elim (.leave c) fun respHeader => .again
    { c with
      written := c.written ++ (respHeader ++ responsePayload)
      requestCount := c.requestCount + 1 }

variable (processCommand : σ → Nat → Bytes → Bytes × σ)

/-- One pass of `while True`; `break` and the exceptions leave it. -/
def handleRequest (c : Connection σ) : Pass (Connection σ) (Connection σ) :=
  match readExactly headerSize c.stream with
  | none => .leave c
  | some (headerData, stream) =>
    let header := Header.unpack headerData
    if header.magic ≠ magic then .leave { c with stream := stream }
    else if header.payloadLen > maxPacketSize then .leave { c with stream := stream }
    else match readExactly header.payloadLen stream with
      | none => .leave { c with stream := stream }
      | some (payload, stream) =>
        match processCommand c.world header.msgType payload with
        | (responsePayload, world) =>
          respond { c with
            stream := stream
            world := world
            calls := c.calls ++ [(header.msgType, payload)] } responsePayload

def handleClient (fuel : Nat) (world : σ) (stream : Bytes) : Option (Connection σ) :=
  whileLoop (handleRequest processCommand) fuel ⟨stream, world, [], [], 0⟩

/-- The answers to calls made one after another, and the world after them. -/
def answers (world : σ) : List (Nat × Bytes) → List Bytes × σ
  | [] => ([], world)
  | (msgType, payload) :: calls =>
    match processCommand world msgType payload with
    | (response, world) =>
      match answers world calls with
      | (responses, world) => (response :: responses, world)

end Client

/-- A request that a client may send. -/
structure ClientRequest where
  msgType : Nat
  flags : UInt8
  reserved : UInt8
  payload : Bytes
  msgType_lt : msgType < 2 ^ 16
  payload_le : payload.length ≤ maxPacketSize

namespace ClientRequest

def header (r : ClientRequest) : Bytes :=
  magic ++ toBytes 2 r.msgType ++ [r.flags, r.reserved] ++ toBytes 4 r.payload.length

def bytes (r : ClientRequest) : Bytes := r.header ++ r.payload

/-- What `process_command` is to be called with. -/
def call (r : ClientRequest) : Nat × Bytes := (r.msgType, r.payload)

@[simp] theorem length_header (r : ClientRequest) : r.header.length = headerSize := by
  simp [header, magic, ascii, headerSize]

theorem unpack_header (r : ClientRequest) : Header.unpack r.header =
    ⟨magic, r.msgType, r.flags.toNat, r.reserved.toNat, r.payload.length⟩ := by
  have hmagic : magic = [0x48, 0x50, 0x52, 0x53] := by decide
  have htype := ofBytes_toBytes_of_lt (w := 2) r.msgType_lt
  have hpayload : r.payload.length < 256 ^ 4 := by
    have := r.payload_le
    unfold maxPacketSize at this
    omega
  have hlen := ofBytes_toBytes_of_lt hpayload
  obtain ⟨a, b, hab⟩ := List.length_eq_two.mp (length_toBytes 2 r.msgType)
  rw [hab] at htype
  have hbyte : ∀ b : UInt8, ofBytes [b] = b.toNat := by simp [ofBytes]
  simp only [Header.unpack, header, hmagic, hab]
  simp [htype, hlen, hbyte, List.take_of_length_le]

end ClientRequest

theorem readExactly_append {n : Nat} {front rest : Bytes} (h : front.length = n) :
    readExactly n (front ++ rest) = some (front, rest) := by
  rw [readExactly, if_pos (by rw [List.length_append]; omega), List.take_left' h,
    List.drop_left' h]

/-- A tail that is no request: its header is cut short, has another magic or declares
too much, or its payload is cut short. -/
def Broken (tail : Bytes) : Prop :=
  tail.length < headerSize ∨ (Header.unpack (tail.take headerSize)).magic ≠ magic ∨
    (Header.unpack (tail.take headerSize)).payloadLen > maxPacketSize ∨
    tail.length < headerSize + (Header.unpack (tail.take headerSize)).payloadLen

/-- An answer behind its length. -/
def responseBytes (response : Bytes) : Bytes := toBytes 4 response.length ++ response

/-- The length of an answer fits its field. -/
def Answerable (response : Bytes) : Prop := response.length < 2 ^ 32

instance (response : Bytes) : Decidable (Answerable response) :=
  inferInstanceAs (Decidable (_ < _))

theorem selfDelimiting_responses : SelfDelimiting Answerable responseBytes := by
  have hsplit : ∀ x y, Answerable x → Answerable y →
      (responseBytes x).take 4 = (responseBytes y).take 4 → x.length = y.length := by
    intro x y hx hy htake
    rw [responseBytes, responseBytes, List.take_left' (length_toBytes 4 _),
      List.take_left' (length_toBytes 4 _)] at htake
    exact toBytes_inj hx hy htake
  refine selfDelimiting_of_header 4 (fun x _ => ?_) (fun x y hx hy htake => ?_)
    fun x y _ _ heq => ?_
  · simp [responseBytes]
  · simp [responseBytes, hsplit x y hx hy htake]
  · exact (List.append_inj heq (by simp)).2

/-- Nothing follows the last answer. -/
theorem beginsNone_nil : BeginsNone Answerable responseBytes [] := by
  intro x s _ heq
  have := congrArg List.length heq
  simp [responseBytes] at this

section Loop

variable {σ : Type} {processCommand : σ → Nat → Bytes → Bytes × σ}

theorem respond_answerable (c : Connection σ) {response : Bytes} (h : Answerable response) :
    respond c response = .again
      { c with
        written := c.written ++ responseBytes response
        requestCount := c.requestCount + 1 } := by
  have hpack := packUInt_eq_some.mpr
    ⟨fitsUInt_natCast.mpr (show response.length < 256 ^ 4 from h), rfl⟩
  unfold respond
  rw [hpack]
  rfl

/-- A request at the head of the stream is processed and answered. -/
theorem handleRequest_request {c : Connection σ} {r : ClientRequest} {rest : Bytes}
    (hstream : c.stream = r.bytes ++ rest)
    (hanswer : Answerable (processCommand c.world r.msgType r.payload).1) :
    handleRequest processCommand c = .again
      { stream := rest
        world := (processCommand c.world r.msgType r.payload).2
        calls := c.calls ++ [r.call]
        written := c.written ++ responseBytes (processCommand c.world r.msgType r.payload).1
        requestCount := c.requestCount + 1 } := by
  have hheader : readExactly headerSize c.stream = some (r.header, r.payload ++ rest) := by
    rw [hstream, ClientRequest.bytes, List.append_assoc, readExactly_append r.length_header]
  have hpayload : readExactly r.payload.length (r.payload ++ rest) = some (r.payload, rest) :=
    readExactly_append rfl
  unfold handleRequest
  simp only [hheader, ClientRequest.unpack_header, ne_eq, not_true_eq_false, if_false,
    if_neg (not_lt.mpr r.payload_le), hpayload]
  exact respond_answerable _ hanswer

variable (processCommand)

/-- Nothing of a broken tail is processed or answered. -/
theorem handleRequest_broken {c : Connection σ} (h : Broken c.stream) :
    ∃ stream, handleRequest processCommand c = .leave { c with stream := stream } := by
  unfold handleRequest readExactly
  by_cases hshort : headerSize ≤ c.stream.length
  · rw [if_pos hshort]
    dsimp only
    split_ifs with hmagic hlarge hpayload
    · exact ⟨_, rfl⟩
    · exact ⟨_, rfl⟩
    · rw [List.length_drop] at hpayload
      rcases h with h | h | h | h
      · omega
      · exact absurd h hmagic
      · exact absurd h hlarge
      · omega
    · exact ⟨_, rfl⟩
  · rw [if_neg hshort]
    exact ⟨_, rfl⟩

/-- The loop from any point of a connection. -/
theorem handleClient_loop (requests : List ClientRequest) (tail : Bytes) (htail : Broken tail)
    (c : Connection σ) (hstream : c.stream = requests.flatMap ClientRequest.bytes ++ tail)
    (hanswers : ∀ x ∈ (answers processCommand c.world (requests.map ClientRequest.call)).1,
      Answerable x) :
    ∃ fuel c', whileLoop (handleRequest processCommand) fuel c = some c' ∧
      c'.calls = c.calls ++ requests.map ClientRequest.call ∧
      c'.written = c.written ++
        (answers processCommand c.world (requests.map ClientRequest.call)).1.flatMap responseBytes ∧
      c'.world = (answers processCommand c.world (requests.map ClientRequest.call)).2 ∧
      c'.requestCount = c.requestCount + requests.length := by
  induction requests generalizing c with
  | nil =>
    rw [← hstream.trans (List.nil_append tail)] at htail
    obtain ⟨stream, hleave⟩ := handleRequest_broken processCommand htail
    refine ⟨1, _, whileLoop_leave hleave 0, ?_⟩
    simp [answers]
  | cons r requests ih =>
    rw [List.map_cons, show r.call = (r.msgType, r.payload) from rfl, answers] at hanswers ⊢
    rw [List.flatMap_cons, List.append_assoc] at hstream
    dsimp only at hanswers ⊢
    have hagain := handleRequest_request hstream (hanswers _ List.mem_cons_self)
    obtain ⟨fuel, c', hrun, hcalls, hwritten, hworld, hcount⟩ := ih
      ⟨_, (processCommand c.world r.msgType r.payload).2, _, _, _⟩ rfl
      fun x hx => hanswers x (List.mem_cons_of_mem _ hx)
    refine ⟨fuel + 1, c', (whileLoop_again hagain fuel).trans hrun, ?_, ?_, hworld, ?_⟩
    · rw [hcalls, List.append_assoc]
      rfl
    · rw [hwritten, List.flatMap_cons, List.append_assoc]
    · rw [hcount, List.length_cons]
      dsimp only
      omega

/-- The loop cuts the stream into the requests sent: it makes their calls in order
and no others, what it writes splits at the lengths into the answers and in no other
way, and the tail ends it. -/
theorem handleClient_frames (world : σ) (requests : List ClientRequest) (tail : Bytes)
    (htail : Broken tail)
    (hanswers : ∀ x ∈ (answers processCommand world (requests.map ClientRequest.call)).1,
      Answerable x) :
    ∃ fuel c, handleClient processCommand fuel world
        (requests.flatMap ClientRequest.bytes ++ tail) = some c ∧
      c.calls = requests.map ClientRequest.call ∧
      c.world = (answers processCommand world c.calls).2 ∧
      c.written = (answers processCommand world c.calls).1.flatMap responseBytes ∧
      c.requestCount = requests.length ∧
      ∀ responses, (∀ x ∈ responses, Answerable x) →
        responses.flatMap responseBytes = c.written →
          responses = (answers processCommand world c.calls).1 := by
  obtain ⟨fuel, c, hrun, hcalls, hwritten, hworld, hcount⟩ :=
    handleClient_loop processCommand requests tail htail ⟨_, world, [], [], 0⟩ rfl hanswers
  rw [List.nil_append] at hcalls hwritten
  rw [Nat.zero_add] at hcount
  refine ⟨fuel, c, hrun, hcalls, by rw [hcalls, hworld], by rw [hcalls, hwritten], hcount,
    fun responses hresponses heq => ?_⟩
  rw [hwritten] at heq
  rw [hcalls]
  exact (selfDelimiting_responses.flatMap_inj hresponses hanswers beginsNone_nil beginsNone_nil
    (by rw [heq])).1

end Loop

/-- `HyperionServer.process_command`, with what the operating system answers during
each of the calls to come. -/
def serverCommand {n : Nat} [NeZero n] (crc32 : Bytes → UInt32) (text : CommandError → Bytes)
    (world : HyperionEngine n × (Nat → Environment)) (msgType : Nat) (payload : Bytes) :
    Bytes × HyperionEngine n × (Nat → Environment) :=
  match processCommand crc32 text world.1 ⟨msgType, payload, world.2 0⟩ with
  | (response, e) => (response, e, fun i => world.2 (i + 1))

/-- A `SET`, a `GET` whose payload looks like a header, and a header cut short. -/
theorem handleClient_frames_sample :
    ∃ fuel c, handleClient (serverCommand (fun _ => 0) fun _ => []) fuel
        (coldStart, fun _ => quietEnv)
        ([⟨1, 0, 0, [0x6B, separator, 0x76], by decide, by decide⟩,
          ⟨2, 7, 9, magic ++ [0x7C, 0, 1], by decide, by decide⟩].flatMap ClientRequest.bytes ++
          magic) = some c ∧
      c.calls = [(1, [0x6B, separator, 0x76]), (2, magic ++ [0x7C, 0, 1])] ∧
      c.requestCount = 2 ∧
      c.written = [0, 0, 0, 8] ++ ascii "OK_SET:1" ++ [0, 0, 0, 13] ++ ascii "ERR_NOT_FOUND" := by
  obtain ⟨fuel, c, hrun, hcalls, _, hwritten, hcount, _⟩ :=
    handleClient_frames (serverCommand (fun _ => 0) fun _ => []) (coldStart, fun _ => quietEnv)
      [⟨1, 0, 0, [0x6B, separator, 0x76], by decide, by decide⟩,
        ⟨2, 7, 9, magic ++ [0x7C, 0, 1], by decide, by decide⟩] magic (Or.inl (by decide))
      (by decide +kernel)
  refine ⟨fuel, c, hrun, hcalls, hcount, hwritten.trans ?_⟩
  rw [hcalls]
  decide +kernel

end PythonPortfolio.Hyperion
