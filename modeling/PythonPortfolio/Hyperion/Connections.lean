import PythonPortfolio.Hyperion.Framing
import PythonPortfolio.Hyperion.Telemetry

/-!
# Many connections at once

`handle_client` runs once for each connection and can be suspended while it reads a
header, while it reads a payload and while it drains an answer; between two of these it
runs alone. The bytes of a connection arrive in pieces, a reset can come at any of the
three, and the commands of all connections go to one engine and one exporter. Numbers of
the telemetry are exact. What the operating system answers during a command is part of
the event that resumes the coroutine.
-/

namespace PythonPortfolio.Hyperion

open Library Library.BigEndian

/-- Where the coroutine of a connection waits. -/
inductive Phase where
  | header
  | payload (msgType payloadLen : Nat)
  | drain (msgType respLen : Nat)
  | closed
deriving DecidableEq

/-- A connection: what its reader holds, whether the peer has closed its side, the bytes
given to the writer and `ctx.request_count`. -/
structure Session where
  addr : String
  phase : Phase
  buffer : Bytes
  eof : Bool
  written : Bytes
  requestCount : Nat

structure HyperionServer (n : Nat) where
  engine : HyperionEngine n
  sessions : Nat → Session
  accepted : Nat
  activeConnections : Dict String Nat
  metrics : PrometheusExporter Nat

inductive ServerEvent where
  | connect (addr : String)
  | arrive (c : Nat) (data : Bytes)
  | feedEof (c : Nat)
  | resume (c : Nat) (env : Environment)
  | reset (c : Nat)

namespace HyperionServer

variable {n : Nat}

def init (engine : HyperionEngine n) : HyperionServer n :=
  ⟨engine, fun _ => ⟨"", .closed, [], false, [], 0⟩, 0, .empty, .init⟩

def modify (s : HyperionServer n) (c : Nat) (f : Session → Session) : HyperionServer n :=
  { s with sessions := fun d => if d = c then f (s.sessions d) else s.sessions d }

/-- The start of `handle_client`. -/
def accept (s : HyperionServer n) (addr : String) : HyperionServer n :=
  { s.modify s.accepted fun _ => ⟨addr, .header, [], false, [], 0⟩ with
    accepted := s.accepted + 1
    activeConnections := s.activeConnections.set addr s.accepted }

/-- The `finally` of `handle_client`; a `KeyError` of its `del` ends the task like its return. -/
def close (s : HyperionServer n) (c : Nat) : HyperionServer n :=
  { s.modify c fun x => { x with phase := .closed } with
    activeConnections := s.activeConnections.erase (s.sessions c).addr }

/-- Behind `readexactly(HEADER_SIZE)`. -/
def readHeader (s : HyperionServer n) (c : Nat) : Option (HyperionServer n) :=
  match readExactly headerSize (s.sessions c).buffer with
  | none => if (s.sessions c).eof then some (s.close c) else none
  | some (headerData, rest) =>
    let header := Header.unpack headerData
    if header.magic ≠ magic then some (s.close c)
    else if header.payloadLen > maxPacketSize then some (s.close c)
    else some (s.modify c fun x =>
      { x with buffer := rest, phase := .payload header.msgType header.payloadLen })

/-- The answer goes to the writer behind its length; `struct.error` ends the connection. -/
def answer (s : HyperionServer n) (c msgType : Nat) (rest responsePayload : Bytes) :
    HyperionServer n :=
  (packUInt 4 responsePayload.length).elim (s.close c) fun respHeader => s.modify c fun x =>
    { x with
      buffer := rest
      written := x.written ++ (respHeader ++ responsePayload)
      phase := .drain msgType responsePayload.length }

section Command

variable [NeZero n] (crc32 : Bytes → UInt32) (text : CommandError → Bytes)

/-- Behind `readexactly(payload_len)`, up to `drain`. -/
def readPayload (s : HyperionServer n) (c msgType payloadLen : Nat) (env : Environment) :
    Option (HyperionServer n) :=
  match readExactly payloadLen (s.sessions c).buffer with
  | none => if (s.sessions c).eof then some (s.close c) else none
  | some (payload, rest) =>
    let processed := processCommand crc32 text s.engine ⟨msgType, payload, env⟩
    some ({ s with engine := processed.2 }.answer c msgType rest processed.1)

/-- The labels of `hyperion_requests_total`. -/
def typeLabels (msgType : Nat) : Labels :=
  [(PyStr.lit "type", PyStr.lit (toString msgType))]

def requestsTotal : PyStr := PyStr.lit "hyperion_requests_total"

def bytesSentTotal : PyStr := PyStr.lit "hyperion_bytes_sent_total"

/-- Behind `drain`. -/
def drained (s : HyperionServer n) (c msgType respLen : Nat) : HyperionServer n :=
  { s.modify c fun x => { x with phase := .header, requestCount := x.requestCount + 1 } with
    metrics := (s.metrics.incCounter requestsTotal 1 (typeLabels msgType)).incCounter
      bytesSentTotal respLen [] }

def step (s : HyperionServer n) : ServerEvent → Option (HyperionServer n)
  | .connect addr => some (s.accept addr)
  | .arrive c data =>
    if (s.sessions c).phase = .closed ∨ (s.sessions c).eof then none
    else some (s.modify c fun x => { x with buffer := x.buffer ++ data })
  | .feedEof c =>
    if (s.sessions c).phase = .closed then none
    else some (s.modify c fun x => { x with eof := true })
  | .resume c env =>
    match (s.sessions c).phase with
    | .header => s.readHeader c
    | .payload msgType payloadLen => s.readPayload crc32 text c msgType payloadLen env
    | .drain msgType respLen => some (s.drained c msgType respLen)
    | .closed => none
  | .reset c => if (s.sessions c).phase = .closed then none else some (s.close c)

def machine (n : Nat) [NeZero n] (crc32 : Bytes → UInt32) (text : CommandError → Bytes) :
    Machine (HyperionServer n) ServerEvent where
  start s := ∃ wal, s = init (.init wal)
  step := step crc32 text

end Command

end HyperionServer

abbrev ServerStep (n : Nat) := Transition (HyperionServer n) ServerEvent

namespace HyperionServer

variable {n : Nat} [NeZero n] {crc32 : Bytes → UInt32} {text : CommandError → Bytes}
  {s s' : HyperionServer n} {c d : Nat}

/-- A request processed for a connection. -/
structure Exchange where
  conn : Nat
  command : Command
  response : Bytes

/-- The request that a transition processes. -/
def exchange (crc32 : Bytes → UInt32) (text : CommandError → Bytes) (t : ServerStep n) :
    Option Exchange :=
  match t.event with
  | .resume c env =>
    match (t.pre.sessions c).phase with
    | .payload msgType payloadLen =>
      (readExactly payloadLen (t.pre.sessions c).buffer).map fun p =>
        ⟨c, ⟨msgType, p.1, env⟩, (processCommand crc32 text t.pre.engine ⟨msgType, p.1, env⟩).1⟩
    | _ => none
  | _ => none

/-- The answer that a transition has drained: its connection, type and length. -/
def sent (t : ServerStep n) : Option (Nat × Nat × Nat) :=
  match t.event with
  | .resume c _ =>
    match (t.pre.sessions c).phase with
    | .drain msgType respLen => some (c, msgType, respLen)
    | _ => none
  | _ => none

/-- The bytes that a transition brings to a connection. -/
def arrived (c : Nat) (t : ServerStep n) : Bytes :=
  match t.event with
  | .arrive d data => if d = c then data else []
  | _ => []

/-! ## What a step does -/

omit [NeZero n] in
@[simp] theorem modify_self (f : Session → Session) :
    (s.modify c f).sessions c = f (s.sessions c) :=
  if_pos rfl

omit [NeZero n] in
theorem modify_of_ne (h : d ≠ c) (f : Session → Session) :
    (s.modify c f).sessions d = s.sessions d :=
  if_neg h

theorem fits_iff_answerable {response : Bytes} :
    FitsUInt 4 (response.length : Int) ↔ Answerable response := by
  rw [fitsUInt_natCast]
  exact Iff.rfl

omit [NeZero n] in
theorem answer_of_answerable {rest response : Bytes} (h : Answerable response) (msgType : Nat) :
    s.answer c msgType rest response = s.modify c fun x =>
      { x with
        buffer := rest
        written := x.written ++ responseBytes response
        phase := .drain msgType response.length } := by
  have hpack : packUInt 4 response.length = some (toBytes 4 response.length) := by
    rw [packUInt, if_pos (fits_iff_answerable.mpr h), Int.toNat_natCast]
  rw [answer, hpack, Option.elim_some]
  rfl

omit [NeZero n] in
theorem answer_of_not_answerable {rest response : Bytes} (h : ¬ Answerable response)
    (msgType : Nat) : s.answer c msgType rest response = s.close c := by
  have hpack : packUInt 4 response.length = none := if_neg (mt fits_iff_answerable.mp h)
  rw [answer, hpack, Option.elim_none]

inductive StepCase (crc32 : Bytes → UInt32) (text : CommandError → Bytes) (s : HyperionServer n) :
    ServerEvent → HyperionServer n → Prop
  | connect {addr : String} : StepCase crc32 text s (.connect addr) (s.accept addr)
  | arrive {c : Nat} {data : Bytes} (hopen : (s.sessions c).phase ≠ .closed) :
      StepCase crc32 text s (.arrive c data)
        (s.modify c fun x => { x with buffer := x.buffer ++ data })
  | feedEof {c : Nat} (hopen : (s.sessions c).phase ≠ .closed) :
      StepCase crc32 text s (.feedEof c) (s.modify c fun x => { x with eof := true })
  | reset {c : Nat} (hopen : (s.sessions c).phase ≠ .closed) :
      StepCase crc32 text s (.reset c) (s.close c)
  | headerEnds {c : Nat} {env : Environment} (hphase : (s.sessions c).phase = .header) :
      StepCase crc32 text s (.resume c env) (s.close c)
  | payloadEnds {c msgType payloadLen : Nat} {env : Environment}
      (hphase : (s.sessions c).phase = .payload msgType payloadLen)
      (hread : readExactly payloadLen (s.sessions c).buffer = none) :
      StepCase crc32 text s (.resume c env) (s.close c)
  | header {c : Nat} {env : Environment} {headerData rest : Bytes}
      (hphase : (s.sessions c).phase = .header)
      (hread : readExactly headerSize (s.sessions c).buffer = some (headerData, rest))
      (hmagic : (Header.unpack headerData).magic = magic)
      (hlen : (Header.unpack headerData).payloadLen ≤ maxPacketSize) :
      StepCase crc32 text s (.resume c env) (s.modify c fun x =>
        { x with
          buffer := rest
          phase := .payload (Header.unpack headerData).msgType
            (Header.unpack headerData).payloadLen })
  | command {c msgType payloadLen : Nat} {env : Environment} {payload rest : Bytes}
      {processed : Bytes × HyperionEngine n}
      (hphase : (s.sessions c).phase = .payload msgType payloadLen)
      (hread : readExactly payloadLen (s.sessions c).buffer = some (payload, rest))
      (hprocessed : processCommand crc32 text s.engine ⟨msgType, payload, env⟩ = processed) :
      StepCase crc32 text s (.resume c env)
        ({ s with engine := processed.2 }.answer c msgType rest processed.1)
  | drained {c msgType respLen : Nat} {env : Environment}
      (hphase : (s.sessions c).phase = .drain msgType respLen) :
      StepCase crc32 text s (.resume c env) (s.drained c msgType respLen)

theorem readHeader_case {env : Environment} (hphase : (s.sessions c).phase = .header)
    (h : s.readHeader c = some s') : StepCase crc32 text s (.resume c env) s' := by
  unfold readHeader at h
  cases hread : readExactly headerSize (s.sessions c).buffer with
  | none =>
    rw [hread] at h
    obtain ⟨-, heq⟩ := Option.ite_none_right_eq_some.mp h
    cases heq
    exact .headerEnds hphase
  | some p =>
    obtain ⟨headerData, rest⟩ := p
    rw [hread] at h
    dsimp only at h
    split_ifs at h with hmagic hlen
    · cases h
      exact .headerEnds hphase
    · cases h
      exact .headerEnds hphase
    · cases h
      exact .header hphase hread (not_not.mp hmagic) (not_lt.mp hlen)

theorem readPayload_case {msgType payloadLen : Nat} {env : Environment}
    (hphase : (s.sessions c).phase = .payload msgType payloadLen)
    (h : s.readPayload crc32 text c msgType payloadLen env = some s') :
    StepCase crc32 text s (.resume c env) s' := by
  unfold readPayload at h
  cases hread : readExactly payloadLen (s.sessions c).buffer with
  | none =>
    rw [hread] at h
    obtain ⟨-, heq⟩ := Option.ite_none_right_eq_some.mp h
    cases heq
    exact .payloadEnds hphase hread
  | some p =>
    obtain ⟨payload, rest⟩ := p
    rw [hread] at h
    obtain rfl := Option.some.inj h
    exact .command hphase hread rfl

theorem step_case {e : ServerEvent} (h : s.step crc32 text e = some s') :
    StepCase crc32 text s e s' := by
  cases e with
  | connect addr =>
    obtain rfl := Option.some.inj h
    exact .connect
  | arrive c data =>
    obtain ⟨hopen, heq⟩ := Option.ite_none_left_eq_some.mp h
    obtain rfl := Option.some.inj heq
    exact .arrive fun hc => hopen (Or.inl hc)
  | feedEof c =>
    obtain ⟨hopen, heq⟩ := Option.ite_none_left_eq_some.mp h
    obtain rfl := Option.some.inj heq
    exact .feedEof hopen
  | reset c =>
    obtain ⟨hopen, heq⟩ := Option.ite_none_left_eq_some.mp h
    obtain rfl := Option.some.inj heq
    exact .reset hopen
  | resume c env =>
    simp only [step] at h
    cases hphase : (s.sessions c).phase with
    | closed =>
      rw [hphase] at h
      cases h
    | drain msgType respLen =>
      rw [hphase] at h
      obtain rfl := Option.some.inj h
      exact .drained hphase
    | header =>
      rw [hphase] at h
      exact readHeader_case hphase h
    | payload msgType payloadLen =>
      rw [hphase] at h
      exact readPayload_case hphase h

/-! ## The frames of a connection -/

def Exchange.call (x : Exchange) : Nat × Bytes := (x.command.msgType, x.command.payload)

/-- What the telemetry is told of an answer. -/
def Exchange.size (x : Exchange) : Nat × Nat := (x.command.msgType, x.response.length)

/-- What is written for an exchange. -/
def Exchange.bytes (x : Exchange) : Bytes :=
  if Answerable x.response then responseBytes x.response else []

/-- With any payload of the length it declares, the header makes a request. -/
def Heads (head : Bytes) (msgType payloadLen : Nat) : Prop :=
  ∀ payload, payload.length = payloadLen →
    ∃ r : ClientRequest, r.call = (msgType, payload) ∧ r.bytes = head ++ payload

/-- How the bytes that have arrived divide: the requests processed, a header that has been
read and what the reader holds. -/
def Cut (bytes : Bytes) (x : Session) (rs : List ClientRequest) : Prop :=
  match x.phase with
  | .header | .drain _ _ => bytes = rs.flatMap ClientRequest.bytes ++ x.buffer
  | .payload msgType payloadLen => ∃ head, Heads head msgType payloadLen ∧
      bytes = rs.flatMap ClientRequest.bytes ++ (head ++ x.buffer)
  | .closed => rs.flatMap ClientRequest.bytes <+: bytes

/-- All answers have been drained, apart from the one that waits; where the connection
ended the last one may not have been. -/
def Told (xs : List Exchange) (ds : List (Nat × Nat)) : Phase → Prop
  | .header | .payload _ _ => ds = xs.map Exchange.size
  | .drain msgType respLen => ds ++ [(msgType, respLen)] = xs.map Exchange.size
  | .closed => ds <+: xs.map Exchange.size ∧ xs.length ≤ ds.length + 1

/-- A connection that has been sent `bytes`, made the exchanges `xs` and drained the answers
`ds`. -/
structure Framed (bytes : Bytes) (xs : List Exchange) (ds : List (Nat × Nat)) (x : Session) :
    Prop where
  cut : ∃ rs : List ClientRequest, rs.map ClientRequest.call = xs.map Exchange.call ∧ Cut bytes x rs
  written : x.written = xs.flatMap Exchange.bytes
  told : Told xs ds x.phase
  counted : x.requestCount = ds.length

/-- Twelve bytes with the magic number are a header. -/
theorem heads_of_unpack {head : Bytes} (hlength : head.length = headerSize)
    (hmagic : (Header.unpack head).magic = magic)
    (hlen : (Header.unpack head).payloadLen ≤ maxPacketSize) :
    Heads head (Header.unpack head).msgType (Header.unpack head).payloadLen := by
  intro payload hpayload
  obtain ⟨m, rest, rfl, hm⟩ : ∃ m rest, head = m ++ rest ∧ m.length = 4 :=
    ⟨head.take 4, head.drop 4, (List.take_append_drop 4 head).symm, by
      rw [List.length_take, hlength]
      rfl⟩
  have hrest : rest.length = 8 := by
    have := hlength
    rw [List.length_append, hm] at this
    unfold headerSize at this
    omega
  obtain ⟨t₁, t₂, flags, reserved, l₁, l₂, l₃, l₄, rfl⟩ :
      ∃ t₁ t₂ flags reserved l₁ l₂ l₃ l₄,
        rest = [t₁, t₂, flags, reserved, l₁, l₂, l₃, l₄] := by
    match rest, hrest with
    | [t₁, t₂, flags, reserved, l₁, l₂, l₃, l₄], _ => exact ⟨_, _, _, _, _, _, _, _, rfl⟩
  have hdrop : ∀ k, (m ++ [t₁, t₂, flags, reserved, l₁, l₂, l₃, l₄]).drop (4 + k) =
      [t₁, t₂, flags, reserved, l₁, l₂, l₃, l₄].drop k := fun k => by
    rw [← hm, List.drop_append]
    simp
  have hunpack : Header.unpack (m ++ [t₁, t₂, flags, reserved, l₁, l₂, l₃, l₄]) =
      ⟨m, ofBytes [t₁, t₂], ofBytes [flags], ofBytes [reserved], ofBytes [l₁, l₂, l₃, l₄]⟩ := by
    rw [Header.unpack, List.take_left' hm, hdrop 0, hdrop 2, hdrop 3, hdrop 4]
    rfl
  rw [hunpack] at hmagic hlen hpayload ⊢
  dsimp only at hmagic hlen hpayload ⊢
  have htype : ofBytes [t₁, t₂] < 2 ^ 16 := by
    have hlt := ofBytes_lt [t₁, t₂]
    norm_num at hlt ⊢
    exact hlt
  have hle : payload.length ≤ maxPacketSize := by rw [hpayload]; exact hlen
  refine ⟨⟨ofBytes [t₁, t₂], flags, reserved, payload, htype, hle⟩, rfl, ?_⟩
  have ht := toBytes_ofBytes [t₁, t₂]
  have hl := toBytes_ofBytes [l₁, l₂, l₃, l₄]
  rw [List.length_cons, List.length_cons, List.length_nil] at ht
  rw [ClientRequest.bytes, ClientRequest.header]
  dsimp only
  rw [hpayload, hmagic]
  rw [show toBytes 2 (ofBytes [t₁, t₂]) = [t₁, t₂] from ht,
    show toBytes 4 (ofBytes [l₁, l₂, l₃, l₄]) = [l₁, l₂, l₃, l₄] from hl]
  simp

section Framed

variable {bytes : Bytes} {xs : List Exchange} {ds : List (Nat × Nat)} {x : Session}

theorem Cut.processed {rs : List ClientRequest} (h : Cut bytes x rs) :
    rs.flatMap ClientRequest.bytes <+: bytes := by
  unfold Cut at h
  split at h
  · exact ⟨_, h.symm⟩
  · exact ⟨_, h.symm⟩
  · obtain ⟨head, -, heq⟩ := h
    exact ⟨_, heq.symm⟩
  · exact h

theorem Told.closed {phase : Phase} (h : Told xs ds phase) : Told xs ds .closed := by
  have hof : ∀ rest, ds ++ rest = xs.map Exchange.size → rest.length ≤ 1 → Told xs ds .closed := by
    intro rest heq hrest
    have hlength := congrArg List.length heq
    rw [List.length_append, List.length_map] at hlength
    exact ⟨⟨rest, heq⟩, by omega⟩
  cases phase with
  | header => exact hof [] ((List.append_nil _).trans h) (Nat.zero_le 1)
  | payload msgType payloadLen => exact hof [] ((List.append_nil _).trans h) (Nat.zero_le 1)
  | drain msgType respLen => exact hof _ h le_rfl
  | closed => exact h

theorem Framed.arrive (h : Framed bytes xs ds x) (hopen : x.phase ≠ .closed) (data : Bytes) :
    Framed (bytes ++ data) xs ds { x with buffer := x.buffer ++ data } := by
  obtain ⟨rs, hcalls, hcut⟩ := h.cut
  refine ⟨⟨rs, hcalls, ?_⟩, h.written, h.told, h.counted⟩
  unfold Cut at hcut ⊢
  dsimp only
  cases hphase : x.phase with
  | closed => exact absurd hphase hopen
  | header =>
    rw [hphase] at hcut
    rw [hcut, List.append_assoc]
  | drain msgType respLen =>
    rw [hphase] at hcut
    rw [hcut, List.append_assoc]
  | payload msgType payloadLen =>
    rw [hphase] at hcut
    obtain ⟨head, hhead, heq⟩ := hcut
    refine ⟨head, hhead, ?_⟩
    rw [heq, List.append_assoc, List.append_assoc]

theorem Framed.feedEof (h : Framed bytes xs ds x) : Framed bytes xs ds { x with eof := true } :=
  ⟨h.cut, h.written, h.told, h.counted⟩

theorem Framed.close (h : Framed bytes xs ds x) :
    Framed bytes xs ds { x with phase := .closed } := by
  obtain ⟨rs, hcalls, hcut⟩ := h.cut
  exact ⟨⟨rs, hcalls, hcut.processed⟩, h.written, h.told.closed, h.counted⟩

theorem readExactly_eq_some {m : Nat} {buffer front rest : Bytes}
    (h : readExactly m buffer = some (front, rest)) :
    buffer = front ++ rest ∧ front.length = m := by
  rw [readExactly] at h
  obtain ⟨hle, heq⟩ := Option.ite_none_right_eq_some.mp h
  obtain ⟨rfl, rfl⟩ := Prod.mk.inj (Option.some.inj heq)
  exact ⟨(List.take_append_drop m buffer).symm, List.length_take_of_le hle⟩

theorem Framed.header {headerData rest : Bytes} (h : Framed bytes xs ds x)
    (hphase : x.phase = .header) (hread : readExactly headerSize x.buffer = some (headerData, rest))
    (hmagic : (Header.unpack headerData).magic = magic)
    (hlen : (Header.unpack headerData).payloadLen ≤ maxPacketSize) :
    Framed bytes xs ds
      { x with
        buffer := rest
        phase := .payload (Header.unpack headerData).msgType
          (Header.unpack headerData).payloadLen } := by
  obtain ⟨rs, hcalls, hcut⟩ := h.cut
  obtain ⟨hbuffer, hlength⟩ := readExactly_eq_some hread
  have htold := h.told
  rw [hphase] at htold
  rw [Cut, hphase] at hcut
  refine ⟨⟨rs, hcalls, headerData, heads_of_unpack hlength hmagic hlen, ?_⟩, h.written, htold,
    h.counted⟩
  rw [hcut, hbuffer]

theorem Framed.answered {msgType payloadLen : Nat} {y : Exchange} {rest : Bytes}
    (h : Framed bytes xs ds x) (hphase : x.phase = .payload msgType payloadLen)
    (hread : readExactly payloadLen x.buffer = some (y.command.payload, rest))
    (htype : y.command.msgType = msgType) (hanswer : Answerable y.response) :
    Framed bytes (xs ++ [y]) ds
      { x with
        buffer := rest
        written := x.written ++ responseBytes y.response
        phase := .drain msgType y.response.length } := by
  obtain ⟨rs, hcalls, hcut⟩ := h.cut
  obtain ⟨hbuffer, hlength⟩ := readExactly_eq_some hread
  rw [Cut, hphase] at hcut
  obtain ⟨head, hhead, hbytes⟩ := hcut
  obtain ⟨r, hcall, hr⟩ := hhead _ hlength
  have htold := h.told
  rw [hphase] at htold
  refine ⟨⟨rs ++ [r], ?_, ?_⟩, ?_, ?_, h.counted⟩
  · rw [List.map_append, List.map_append, hcalls]
    simp [hcall, Exchange.call, htype]
  · change bytes = (rs ++ [r]).flatMap ClientRequest.bytes ++ rest
    rw [hbytes, hbuffer, List.flatMap_append, List.flatMap_singleton, hr]
    simp
  · dsimp only
    rw [List.flatMap_append, List.flatMap_singleton, ← h.written, Exchange.bytes, if_pos hanswer]
  · rw [Told, htold, List.map_append, ← htype]
    rfl

/-- An answer that does not fit its length field ends the connection. -/
theorem Framed.unanswered {msgType payloadLen : Nat} {y : Exchange} {rest : Bytes}
    (h : Framed bytes xs ds x) (hphase : x.phase = .payload msgType payloadLen)
    (hread : readExactly payloadLen x.buffer = some (y.command.payload, rest))
    (htype : y.command.msgType = msgType) (hanswer : ¬ Answerable y.response) :
    Framed bytes (xs ++ [y]) ds { x with phase := .closed } := by
  obtain ⟨rs, hcalls, hcut⟩ := h.cut
  obtain ⟨hbuffer, hlength⟩ := readExactly_eq_some hread
  rw [Cut, hphase] at hcut
  obtain ⟨head, hhead, hbytes⟩ := hcut
  obtain ⟨r, hcall, hr⟩ := hhead _ hlength
  have htold := h.told
  rw [hphase] at htold
  refine ⟨⟨rs ++ [r], ?_, rest, ?_⟩, ?_, ⟨⟨[y.size], ?_⟩, ?_⟩, h.counted⟩
  · rw [List.map_append, List.map_append, hcalls]
    simp [hcall, Exchange.call, htype]
  · rw [hbytes, hbuffer, List.flatMap_append, List.flatMap_singleton, hr]
    simp
  · dsimp only
    rw [List.flatMap_append, List.flatMap_singleton, ← h.written, Exchange.bytes, if_neg hanswer,
      List.append_nil]
  · rw [htold, List.map_append, List.map_singleton]
  · rw [htold, List.length_append, List.length_map, List.length_singleton]

theorem Framed.drained {msgType respLen : Nat} (h : Framed bytes xs ds x)
    (hphase : x.phase = .drain msgType respLen) :
    Framed bytes xs (ds ++ [(msgType, respLen)])
      { x with phase := .header, requestCount := x.requestCount + 1 } := by
  obtain ⟨rs, hcalls, hcut⟩ := h.cut
  have htold := h.told
  rw [hphase] at htold
  rw [Cut, hphase] at hcut
  refine ⟨⟨rs, hcalls, hcut⟩, h.written, htold, ?_⟩
  rw [List.length_append, List.length_singleton]
  exact congrArg (· + 1) h.counted

end Framed

/-! ## A run, seen from one connection -/

def received (c : Nat) (trace : List (ServerStep n)) : Bytes := trace.flatMap (arrived c)

def exchanges (crc32 : Bytes → UInt32) (text : CommandError → Bytes) (c : Nat)
    (trace : List (ServerStep n)) : List Exchange :=
  (trace.filterMap (exchange crc32 text)).filter fun x => x.conn = c

/-- The answers drained on a connection, with their types and lengths. -/
def answered (c : Nat) (trace : List (ServerStep n)) : List (Nat × Nat) :=
  ((trace.filterMap sent).filter fun x => x.1 = c).map Prod.snd

omit [NeZero n] in
theorem received_concat (trace : List (ServerStep n)) (t : ServerStep n) :
    received c (trace ++ [t]) = received c trace ++ arrived c t := by
  simp [received]

theorem exchanges_concat (trace : List (ServerStep n)) (t : ServerStep n) :
    exchanges crc32 text c (trace ++ [t]) = exchanges crc32 text c trace ++
      (exchange crc32 text t).toList.filter fun x => x.conn = c := by
  rw [exchanges, filterMap_concat, List.filter_append]
  rfl

omit [NeZero n] in
theorem answered_concat (trace : List (ServerStep n)) (t : ServerStep n) :
    answered c (trace ++ [t]) =
      answered c trace ++ ((sent t).toList.filter fun x => x.1 = c).map Prod.snd := by
  rw [answered, filterMap_concat, List.filter_append, List.map_append]
  rfl

/-- The connection that an event is for. -/
def conn : ServerEvent → Option Nat
  | .connect _ => none
  | .arrive c _ | .feedEof c | .resume c _ | .reset c => some c

variable (crc32 text) in
/-- An event for another connection is not seen. -/
theorem unseen {t : ServerStep n} (h : conn t.event ≠ some c) : arrived c t = [] ∧
    ((exchange crc32 text t).toList.filter fun x => x.conn = c) = [] ∧
      ((sent t).toList.filter fun x => x.1 = c).map Prod.snd = [] := by
  obtain ⟨pre, e, post⟩ := t
  cases e with
  | connect addr => exact ⟨rfl, rfl, rfl⟩
  | arrive d data => exact ⟨if_neg fun hd => h (congrArg some hd), rfl, rfl⟩
  | feedEof d => exact ⟨rfl, rfl, rfl⟩
  | reset d => exact ⟨rfl, rfl, rfl⟩
  | resume d env =>
    have hd : d ≠ c := fun hd => h (congrArg some hd)
    simp only [exchange, sent]
    refine ⟨rfl, ?_, ?_⟩
    · cases (pre.sessions d).phase with
      | header => rfl
      | closed => rfl
      | drain msgType respLen => rfl
      | payload msgType payloadLen =>
        dsimp only
        cases readExactly payloadLen (pre.sessions d).buffer with
        | none => rfl
        | some p => simp [hd]
    · cases (pre.sessions d).phase with
      | header => rfl
      | closed => rfl
      | payload msgType payloadLen => rfl
      | drain msgType respLen => simp [hd]

omit [NeZero n] in
theorem close_of_ne (h : d ≠ c) : (s.close c).sessions d = s.sessions d := if_neg h

omit [NeZero n] in
theorem answer_of_ne (h : d ≠ c) (msgType : Nat) (rest response : Bytes) :
    (s.answer c msgType rest response).sessions d = s.sessions d := by
  by_cases hanswer : Answerable response
  · rw [answer_of_answerable hanswer]
    exact modify_of_ne h _
  · rw [answer_of_not_answerable hanswer]
    exact close_of_ne h

theorem sessions_of_ne {e : ServerEvent} (hcase : StepCase crc32 text s e s')
    (h : conn e = some c) (hne : d ≠ c) : s'.sessions d = s.sessions d := by
  cases hcase with
  | connect => cases h
  | arrive _ => cases h; exact modify_of_ne hne _
  | feedEof _ => cases h; exact modify_of_ne hne _
  | reset _ => cases h; exact close_of_ne hne
  | headerEnds _ => cases h; exact close_of_ne hne
  | payloadEnds _ _ => cases h; exact close_of_ne hne
  | header _ _ _ _ => cases h; exact modify_of_ne hne _
  | drained _ => cases h; exact if_neg hne
  | command _ _ _ => cases h; exact answer_of_ne hne _ _ _

omit [NeZero n] in
@[simp] theorem accepted_answer (msgType : Nat) (rest response : Bytes) :
    (s.answer c msgType rest response).accepted = s.accepted := by
  by_cases hanswer : Answerable response
  · rw [answer_of_answerable hanswer]
    rfl
  · rw [answer_of_not_answerable hanswer]
    rfl

theorem accepted_of_conn {e : ServerEvent} (hcase : StepCase crc32 text s e s')
    (h : conn e = some c) : s'.accepted = s.accepted ∧ (s.sessions c).phase ≠ .closed := by
  cases hcase with
  | connect => cases h
  | arrive hopen => cases h; exact ⟨rfl, hopen⟩
  | feedEof hopen => cases h; exact ⟨rfl, hopen⟩
  | reset hopen => cases h; exact ⟨rfl, hopen⟩
  | headerEnds hphase => cases h; exact ⟨rfl, by rw [hphase]; nofun⟩
  | payloadEnds hphase _ => cases h; exact ⟨rfl, by rw [hphase]; nofun⟩
  | header hphase _ _ _ => cases h; exact ⟨rfl, by rw [hphase]; nofun⟩
  | drained hphase => cases h; exact ⟨rfl, by rw [hphase]; nofun⟩
  | command hphase _ _ => cases h; exact ⟨accepted_answer _ _ _, by rw [hphase]; nofun⟩

theorem exchange_command {msgType payloadLen : Nat} {env : Environment} {payload rest : Bytes}
    {processed : Bytes × HyperionEngine n}
    (hphase : (s.sessions c).phase = .payload msgType payloadLen)
    (hread : readExactly payloadLen (s.sessions c).buffer = some (payload, rest))
    (hprocessed : processCommand crc32 text s.engine ⟨msgType, payload, env⟩ = processed) :
    exchange crc32 text ⟨s, .resume c env, s'⟩ =
      some ⟨c, ⟨msgType, payload, env⟩, processed.1⟩ := by
  simp only [exchange, hphase, hread, Option.map_some, hprocessed]

omit [NeZero n] in
theorem sent_payload {msgType payloadLen : Nat} {env : Environment}
    (hphase : (s.sessions c).phase = .payload msgType payloadLen) :
    sent ⟨s, .resume c env, s'⟩ = none := by
  simp only [sent, hphase]

omit [NeZero n] in
theorem framed_answer {msgType payloadLen : Nat} {env : Environment} {payload rest bytes : Bytes}
    {xs : List Exchange} {ds : List (Nat × Nat)} (hframed : Framed bytes xs ds (s.sessions c))
    (hphase : (s.sessions c).phase = .payload msgType payloadLen)
    (hread : readExactly payloadLen (s.sessions c).buffer = some (payload, rest))
    (response : Bytes) :
    Framed bytes (xs ++ [⟨c, ⟨msgType, payload, env⟩, response⟩]) ds
      ((s.answer c msgType rest response).sessions c) := by
  by_cases hanswer : Answerable response
  · rw [answer_of_answerable hanswer, modify_self]
    exact hframed.answered (y := ⟨c, ⟨msgType, payload, env⟩, response⟩) hphase hread rfl hanswer
  · rw [answer_of_not_answerable hanswer, close, modify_self]
    exact hframed.unanswered (y := ⟨c, ⟨msgType, payload, env⟩, response⟩) hphase hread rfl hanswer

/-- A step of its own, as a connection sees it. -/
theorem framed_own {e : ServerEvent} {bytes : Bytes} {xs : List Exchange} {ds : List (Nat × Nat)}
    (hcase : StepCase crc32 text s e s') (h : conn e = some c)
    (hframed : Framed bytes xs ds (s.sessions c)) :
    Framed (bytes ++ arrived c ⟨s, e, s'⟩)
      (xs ++ (exchange crc32 text ⟨s, e, s'⟩).toList.filter fun x => x.conn = c)
      (ds ++ ((sent ⟨s, e, s'⟩).toList.filter fun x => x.1 = c).map Prod.snd) (s'.sessions c) := by
  cases hcase with
  | connect => cases h
  | arrive hopen =>
    cases h
    simpa [arrived, exchange, sent] using hframed.arrive hopen _
  | feedEof hopen =>
    cases h
    simpa [arrived, exchange, sent] using hframed.feedEof
  | reset hopen =>
    cases h
    simpa [arrived, exchange, sent, close] using hframed.close
  | headerEnds hphase =>
    cases h
    simpa [arrived, exchange, sent, hphase, close] using hframed.close
  | payloadEnds hphase hread =>
    cases h
    simpa [arrived, exchange, sent, hphase, hread, close] using hframed.close
  | header hphase hread hmagic hlen =>
    cases h
    simpa [arrived, exchange, sent, hphase] using hframed.header hphase hread hmagic hlen
  | drained hphase =>
    cases h
    simpa [arrived, exchange, sent, hphase, drained] using hframed.drained hphase
  | @command _ _ _ _ _ _ processed hphase hread hprocessed =>
    cases h
    rw [exchange_command hphase hread hprocessed, sent_payload hphase]
    simp only [arrived, List.append_nil, Option.toList_some, Option.toList_none, List.map_nil,
      List.filter_cons, decide_true, if_true, List.filter_nil]
    exact framed_answer (s := { s with engine := processed.2 }) hframed hphase hread processed.1

/-- A connection that has not been accepted. -/
structure Fresh (crc32 : Bytes → UInt32) (text : CommandError → Bytes)
    (trace : List (ServerStep n)) (s : HyperionServer n) (c : Nat) : Prop where
  closed : (s.sessions c).phase = .closed
  received : received c trace = []
  exchanges : exchanges crc32 text c trace = []
  answered : answered c trace = []

structure Served (crc32 : Bytes → UInt32) (text : CommandError → Bytes)
    (trace : List (ServerStep n)) (s : HyperionServer n) : Prop where
  framed : ∀ c, Framed (received c trace) (exchanges crc32 text c trace) (answered c trace)
    (s.sessions c)
  fresh : ∀ c, s.accepted ≤ c → Fresh crc32 text trace s c

variable (crc32 text) in
theorem unseen_concat {t : ServerStep n} (h : conn t.event ≠ some c) (trace : List (ServerStep n)) :
    received c (trace ++ [t]) = received c trace ∧
      exchanges crc32 text c (trace ++ [t]) = exchanges crc32 text c trace ∧
        answered c (trace ++ [t]) = answered c trace := by
  obtain ⟨harrived, hexchange, hsent⟩ := unseen crc32 text h
  rw [received_concat, exchanges_concat, answered_concat, harrived, hexchange, hsent]
  exact ⟨List.append_nil _, List.append_nil _, List.append_nil _⟩

theorem Served.connect {trace : List (ServerStep n)} (h : Served crc32 text trace s)
    (addr : String) :
    Served crc32 text (trace ++ [⟨s, .connect addr, s.accept addr⟩]) (s.accept addr) := by
  have hseen := fun c => unseen_concat crc32 text (c := c)
    (t := ⟨s, .connect addr, s.accept addr⟩) (by nofun) trace
  have hother : ∀ c, c ≠ s.accepted → (s.accept addr).sessions c = s.sessions c :=
    fun c hne => if_neg hne
  constructor
  · intro c
    rw [(hseen c).1, (hseen c).2.1, (hseen c).2.2]
    by_cases hnew : c = s.accepted
    · subst hnew
      have hfresh := h.fresh s.accepted le_rfl
      have hsession : (s.accept addr).sessions s.accepted = ⟨addr, .header, [], false, [], 0⟩ :=
        if_pos rfl
      rw [hfresh.received, hfresh.exchanges, hfresh.answered, hsession]
      exact ⟨⟨[], rfl, rfl⟩, rfl, rfl, rfl⟩
    · rw [hother c hnew]
      exact h.framed c
  · intro c hc
    change s.accepted + 1 ≤ c at hc
    have hfresh := h.fresh c (by omega)
    refine ⟨?_, (hseen c).1.trans hfresh.received, (hseen c).2.1.trans hfresh.exchanges,
      (hseen c).2.2.trans hfresh.answered⟩
    rw [hother c (by omega)]
    exact hfresh.closed

theorem Served.own {trace : List (ServerStep n)} {e : ServerEvent} (h : Served crc32 text trace s)
    (hcase : StepCase crc32 text s e s') (hconn : conn e = some d) :
    Served crc32 text (trace ++ [⟨s, e, s'⟩]) s' := by
  obtain ⟨haccepted, hopen⟩ := accepted_of_conn hcase hconn
  have hseen := fun c (hne : c ≠ d) => unseen_concat crc32 text (c := c)
    (t := ⟨s, e, s'⟩) (fun heq => hne (Option.some.inj (heq.symm.trans hconn))) trace
  constructor
  · intro c
    by_cases hne : c = d
    · subst hne
      rw [received_concat, exchanges_concat, answered_concat]
      exact framed_own hcase hconn (h.framed c)
    · rw [(hseen c hne).1, (hseen c hne).2.1, (hseen c hne).2.2, sessions_of_ne hcase hconn hne]
      exact h.framed c
  · intro c hc
    have hfresh := h.fresh c (haccepted ▸ hc)
    have hne : c ≠ d := fun heq => hopen (heq ▸ hfresh.closed)
    refine ⟨?_, (hseen c hne).1.trans hfresh.received, (hseen c hne).2.1.trans hfresh.exchanges,
      (hseen c hne).2.2.trans hfresh.answered⟩
    rw [sessions_of_ne hcase hconn hne]
    exact hfresh.closed

theorem served_run {s₀ : HyperionServer n} {trace : List (ServerStep n)}
    (h : (machine n crc32 text).Run s₀ trace s) : Served crc32 text trace s := by
  induction h with
  | init h =>
    obtain ⟨wal, rfl⟩ := h
    exact ⟨fun c => ⟨⟨[], rfl, List.nil_prefix⟩, rfl, ⟨List.nil_prefix, Nat.zero_le _⟩, rfl⟩,
      fun c _ => ⟨rfl, rfl, rfl, rfl⟩⟩
  | @next trace s s' e _ hs ih =>
    have hcase := step_case hs
    cases hconn : conn e with
    | some d => exact ih.own hcase hconn
    | none =>
      cases hcase with
      | connect => exact ih.connect _
      | _ => cases hconn

/-! ## One engine for all connections -/

omit [NeZero n] in
@[simp] theorem engine_answer (msgType : Nat) (rest response : Bytes) :
    (s.answer c msgType rest response).engine = s.engine := by
  by_cases hanswer : Answerable response
  · rw [answer_of_answerable hanswer]
    rfl
  · rw [answer_of_not_answerable hanswer]
    rfl

/-- A step leaves the engine alone or processes one request with it. -/
theorem engine_step {e : ServerEvent} (hcase : StepCase crc32 text s e s') :
    (exchange crc32 text ⟨s, e, s'⟩ = none ∧ s'.engine = s.engine) ∨
      ∃ x, exchange crc32 text ⟨s, e, s'⟩ = some x ∧
        processCommand crc32 text s.engine x.command = (x.response, s'.engine) := by
  cases hcase with
  | connect => exact .inl ⟨rfl, rfl⟩
  | arrive _ => exact .inl ⟨rfl, rfl⟩
  | feedEof _ => exact .inl ⟨rfl, rfl⟩
  | reset _ => exact .inl ⟨rfl, rfl⟩
  | headerEnds hphase => exact .inl ⟨by simp only [exchange, hphase], rfl⟩
  | payloadEnds hphase hread =>
    exact .inl ⟨by simp only [exchange, hphase, hread, Option.map_none], rfl⟩
  | header hphase _ _ _ => exact .inl ⟨by simp only [exchange, hphase], rfl⟩
  | drained hphase => exact .inl ⟨by simp only [exchange, hphase], rfl⟩
  | command hphase hread hprocessed =>
    refine .inr ⟨_, exchange_command hphase hread hprocessed, ?_⟩
    rw [engine_answer]
    exact hprocessed

/-- What a command of the engine's run was and what it was answered with. -/
def dialogue (crc32 : Bytes → UInt32) (text : CommandError → Bytes)
    (t : Transition (HyperionEngine n) Command) : Command × Bytes :=
  (t.event, (processCommand crc32 text t.pre t.event).1)

/-- The requests of all connections, in the order of their processing, are a run of the
engine. -/
theorem engine_run {s₀ : HyperionServer n} {trace : List (ServerStep n)}
    (h : (machine n crc32 text).Run s₀ trace s) :
    ∃ commands, (serverMachine n crc32 text).Run s₀.engine commands s.engine ∧
      commands.map (dialogue crc32 text) =
        (trace.filterMap (exchange crc32 text)).map fun x => (x.command, x.response) := by
  induction h with
  | init h =>
    obtain ⟨wal, rfl⟩ := h
    exact ⟨[], .init ⟨wal, rfl⟩, rfl⟩
  | @next trace s s' e _ hs ih =>
    obtain ⟨commands, hrun, hmap⟩ := ih
    rcases engine_step (step_case hs) with ⟨hnone, hengine⟩ | ⟨x, hsome, hprocess⟩
    · refine ⟨commands, ?_, ?_⟩
      · rw [hengine]
        exact hrun
      · rw [hmap, filterMap_concat, hnone, Option.toList_none, List.append_nil]
    · have hafter : afterCommand crc32 text s.engine x.command = s'.engine :=
        congrArg Prod.snd hprocess
      refine ⟨commands ++ [⟨s.engine, x.command, s'.engine⟩], .next hrun (congrArg some hafter), ?_⟩
      rw [List.map_append, hmap, filterMap_concat, hsome, List.map_append]
      simp [dialogue, hprocess]

/-- What a command sets, if it is a `SET` that was answered with `OK_SET`. -/
def storedOf (p : Command × Bytes) : Option (PyStr × Bytes) :=
  if p.1.msgType = 1 ∧ ascii "OK_SET:" <+: p.2 then p.1.keyValue else none

def Exchange.stored (x : Exchange) : Option (PyStr × Bytes) := storedOf (x.command, x.response)

/-- The value that a key was last set to. -/
def lastSet (xs : List Exchange) (key : PyStr) : Option Bytes :=
  ((xs.filterMap Exchange.stored).filter fun p => p.1 = key).getLast?.map Prod.snd

theorem lookup_served {s₀ : HyperionServer n} {trace : List (ServerStep n)}
    (h : (machine n crc32 text).Run s₀ trace s) (key : PyStr) :
    s.engine.lookup crc32 key = lastSet (trace.filterMap (exchange crc32 text)) key := by
  obtain ⟨commands, hrun, hmap⟩ := engine_run h
  have hstored : commands.filterMap (stored crc32 text) =
      (trace.filterMap (exchange crc32 text)).filterMap Exchange.stored := by
    have hcommands : stored crc32 text = storedOf ∘ dialogue (n := n) crc32 text := rfl
    have hexchanges : Exchange.stored = storedOf ∘ fun x => (x.command, x.response) := rfl
    rw [hcommands, hexchanges, ← List.filterMap_map, hmap, List.filterMap_map]
  rw [lookup_run hrun, latest, hstored, lastSet]

/-- The empty value reads like no value. -/
def getAnswer : Option Bytes → Bytes
  | none => ascii "ERR_NOT_FOUND"
  | some v => if v ≠ [] then v else ascii "ERR_NOT_FOUND"

/-- Whichever connections set and read a key: what is read is what was set last. -/
theorem gets_read_lastSet {s₀ : HyperionServer n} {trace : List (ServerStep n)}
    (h : (machine n crc32 text).Run s₀ trace s) :
    Throughout (fun before x => ∀ key, x.command.msgType = 2 →
      PyStr.encodeUtf8 key = some x.command.payload →
        x.response = getAnswer (lastSet before key))
      (trace.filterMap (exchange crc32 text)) := by
  induction h with
  | init h => exact throughout_nil
  | @next trace s s' e hrun hs ih =>
    rw [filterMap_concat]
    rcases engine_step (step_case hs) with ⟨hnone, -⟩ | ⟨x, hsome, hprocess⟩
    · rw [hnone, Option.toList_none, List.append_nil]
      exact ih
    · rw [hsome]
      refine throughout_concat.mpr ⟨ih, fun key htype hk => ?_⟩
      have hcommand : x.command = .get x.command.payload x.command.env := by
        rw [Command.get, ← htype]
      have hget : (processCommand crc32 text s.engine
          (.get x.command.payload x.command.env)).1 = _ := answer_get hk x.command.env
      rw [← hcommand, hprocess] at hget
      rw [← lookup_served hrun]
      refine hget.trans ?_
      cases s.engine.lookup crc32 key <;> rfl

/-! ## What the telemetry has been told -/

theorem toString_inj {t t' : Nat} (h : (toString t).toList = (toString t').toList) : t = t' := by
  change t.repr.toList = t'.repr.toList at h
  rw [Nat.toList_repr, Nat.toList_repr] at h
  rw [← Nat.ofDigitChars_ten_toDigits (n := t), h, Nat.ofDigitChars_ten_toDigits]

theorem not_mem_digits {ch : Char} (h : ch.isDigit = false) (t : Nat) :
    PyChar.scalar ch ∉ PyStr.lit (toString t) := by
  intro hmem
  obtain ⟨ch', hch, heq⟩ := List.mem_map.mp hmem
  obtain rfl := PyChar.scalar.inj heq
  change ch' ∈ t.repr.toList at hch
  rw [Nat.toList_repr] at hch
  rw [Nat.isDigit_of_mem_toDigits (by decide) le_rfl hch] at h
  cases h

theorem plainLabel_type (msgType : Nat) : ∀ l ∈ typeLabels msgType, PlainLabel l := by
  intro l hl
  obtain rfl := List.mem_singleton.mp hl
  have htype : PyChar.scalar '=' ∉ PyStr.lit "type" := by decide
  exact ⟨htype, not_mem_digits (by decide) msgType⟩

theorem plainName_requestsTotal : PlainName requestsTotal := by
  unfold PlainName
  decide

theorem plainName_bytesSentTotal : PlainName bytesSentTotal := by
  unfold PlainName
  decide

/-- Each message type has a counter of its own, and none of them is the counter of bytes. -/
theorem requestsKey_iff {t t' : Nat} :
    formatKey requestsTotal (typeLabels t) = formatKey requestsTotal (typeLabels t') ↔ t = t' := by
  constructor
  · intro h
    obtain ⟨-, hlabels⟩ := formatKey_inj plainName_requestsTotal plainName_requestsTotal
      (plainLabel_type t) (plainLabel_type t') h
    have hvalue := (Prod.mk.inj (List.cons.inj hlabels).1).2
    exact toString_inj (List.map_injective_iff.mpr (fun _ _ => PyChar.scalar.inj) hvalue)
  · rintro rfl
    rfl

theorem requestsKey_ne (t : Nat) :
    formatKey requestsTotal (typeLabels t) ≠ formatKey bytesSentTotal [] := by
  intro h
  obtain ⟨hname, -⟩ := formatKey_inj plainName_requestsTotal plainName_bytesSentTotal
    (plainLabel_type t) (by simp) h
  exact absurd hname (by decide)

omit [NeZero n] in
@[simp] theorem metrics_answer (msgType : Nat) (rest response : Bytes) :
    (s.answer c msgType rest response).metrics = s.metrics := by
  by_cases hanswer : Answerable response
  · rw [answer_of_answerable hanswer]
    rfl
  · rw [answer_of_not_answerable hanswer]
    rfl

/-- A step leaves the exporter alone or drains an answer. -/
theorem metrics_step {e : ServerEvent} (hcase : StepCase crc32 text s e s') :
    (sent ⟨s, e, s'⟩ = none ∧ s'.metrics = s.metrics) ∨
      ∃ c msgType respLen, sent ⟨s, e, s'⟩ = some (c, msgType, respLen) ∧
        s'.metrics = (s.metrics.incCounter requestsTotal 1 (typeLabels msgType)).incCounter
          bytesSentTotal respLen [] := by
  cases hcase with
  | connect => exact .inl ⟨rfl, rfl⟩
  | arrive _ => exact .inl ⟨rfl, rfl⟩
  | feedEof _ => exact .inl ⟨rfl, rfl⟩
  | reset _ => exact .inl ⟨rfl, rfl⟩
  | headerEnds hphase => exact .inl ⟨by simp only [sent, hphase], rfl⟩
  | payloadEnds hphase _ => exact .inl ⟨sent_payload hphase, rfl⟩
  | header hphase _ _ _ => exact .inl ⟨by simp only [sent, hphase], rfl⟩
  | command hphase _ _ => exact .inl ⟨sent_payload hphase, metrics_answer _ _ _⟩
  | @drained c msgType respLen _ hphase =>
    exact .inr ⟨c, msgType, respLen, by simp only [sent, hphase], rfl⟩

/-- The counters are those of the answers drained on all connections. -/
structure Metered (ds : List (Nat × Nat × Nat)) (m : PrometheusExporter Nat) : Prop where
  requests : ∀ msgType, m.counter requestsTotal (typeLabels msgType) =
    ds.countP fun d => d.2.1 = msgType
  bytes : m.counter bytesSentTotal [] = (ds.map fun d => d.2.2).sum

theorem Metered.drained {ds : List (Nat × Nat × Nat)} {m : PrometheusExporter Nat}
    (h : Metered ds m) (c msgType respLen : Nat) :
    Metered (ds ++ [(c, msgType, respLen)])
      ((m.incCounter requestsTotal 1 (typeLabels msgType)).incCounter bytesSentTotal respLen
        []) := by
  constructor
  · intro t
    rw [PrometheusExporter.counter_incCounter, PrometheusExporter.counter_incCounter,
      if_neg (requestsKey_ne t).symm, h.requests t, List.countP_append, List.countP_singleton]
    by_cases ht : msgType = t
    · simp [ht]
    · simp [ht, mt requestsKey_iff.mp ht]
  · rw [PrometheusExporter.counter_incCounter, PrometheusExporter.counter_incCounter,
      if_neg (requestsKey_ne msgType), if_pos rfl, h.bytes]
    simp

theorem metered_run {s₀ : HyperionServer n} {trace : List (ServerStep n)}
    (h : (machine n crc32 text).Run s₀ trace s) : Metered (trace.filterMap sent) s.metrics := by
  induction h with
  | init h =>
    obtain ⟨wal, rfl⟩ := h
    exact ⟨fun _ => rfl, rfl⟩
  | @next trace s s' e _ hs ih =>
    rw [filterMap_concat]
    rcases metrics_step (step_case hs) with ⟨hnone, heq⟩ | ⟨c, msgType, respLen, hsome, heq⟩
    · rw [hnone, Option.toList_none, List.append_nil, heq]
      exact ih
    · rw [hsome, heq]
      exact ih.drained c msgType respLen

/-- The exporter of the server has counters only, and their keys no line break. -/
structure OneLine (m : PrometheusExporter Nat) : Prop where
  gauges : m.gauges = .empty
  keys : ∀ key ∈ m.counters.keys, PyChar.scalar '\n' ∉ key

theorem OneLine.incCounter {m : PrometheusExporter Nat} (h : OneLine m) {name : PyStr}
    {labels : Labels} (hkey : PyChar.scalar '\n' ∉ formatKey name labels) (amount : Nat) :
    OneLine (m.incCounter name amount labels) := by
  refine ⟨h.gauges, fun key hmem => ?_⟩
  rw [PrometheusExporter.incCounter, Dict.keys_set] at hmem
  split at hmem
  · exact h.keys key hmem
  · rcases List.mem_append.mp hmem with hmem | hmem
    · exact h.keys key hmem
    · rwa [List.mem_singleton.mp hmem]

/-- However the coroutines interleave and however the bytes come in: the requests of all
connections are one run of the engine, in the order of processing; a connection has been
served exactly the requests that frame the bytes it was sent, and been answered each of
them, in order; and the counters are those of the answers drained. -/
theorem connections_served {s₀ : HyperionServer n} {trace : List (ServerStep n)}
    (h : (machine n crc32 text).Run s₀ trace s) :
    (∃ commands, (serverMachine n crc32 text).Run s₀.engine commands s.engine ∧
      commands.map (dialogue crc32 text) =
        (trace.filterMap (exchange crc32 text)).map fun x => (x.command, x.response)) ∧
    (∀ c, Framed (received c trace) (exchanges crc32 text c trace) (answered c trace)
      (s.sessions c)) ∧
    Metered (trace.filterMap sent) s.metrics :=
  ⟨engine_run h, (served_run h).framed, metered_run h⟩

/-- A request with a short payload. -/
def requestBytes (msgType : UInt8) (payload : Bytes) : Bytes :=
  magic ++ [0, msgType, 0, 0, 0, 0, 0, UInt8.ofNat payload.length] ++ payload

/-- `SET k|v` on one connection, in two pieces around `GET k` on the other. -/
def twoConnections : List ServerEvent :=
  [.connect "a", .connect "b", .arrive 0 ((requestBytes 1 (ascii "k|v")).take 7),
    .arrive 1 (requestBytes 2 (ascii "k")), .resume 1 quietEnv,
    .arrive 0 ((requestBytes 1 (ascii "k|v")).drop 7), .resume 0 quietEnv, .resume 0 quietEnv,
    .resume 1 quietEnv, .resume 0 quietEnv, .resume 1 quietEnv, .feedEof 1, .resume 1 quietEnv]

def performed (engine : HyperionEngine n) (events : List ServerEvent) :
    Option (List (ServerStep n) × HyperionServer n) :=
  (machine n (fun _ => 0) fun _ => []).exec (init engine) events

theorem performed_run {events : List ServerEvent} (h : (performed coldStart events).isSome) :
    ∃ trace s, performed coldStart events = some (trace, s) ∧
      (machine 1 (fun _ => 0) fun _ => []).Run (init coldStart) trace s := by
  obtain ⟨⟨trace, s⟩, hexec⟩ := Option.isSome_iff_exists.mp h
  exact ⟨trace, s, hexec, Machine.exec_run ⟨_, rfl⟩ hexec⟩

theorem isSome_twoConnections : (performed coldStart twoConnections).isSome := by decide +kernel

theorem connections_served_two : ∃ trace s, performed coldStart twoConnections = some (trace, s) ∧
    (∃ commands, (serverMachine 1 (fun _ => 0) fun _ => []).Run coldStart commands s.engine ∧
      commands.map (dialogue (fun _ => 0) fun _ => []) =
        (trace.filterMap (exchange (fun _ => 0) fun _ => [])).map fun x =>
          (x.command, x.response)) ∧
    (∀ c, Framed (received c trace) (exchanges (fun _ => 0) (fun _ => []) c trace)
      (answered c trace) (s.sessions c)) ∧
    Metered (trace.filterMap sent) s.metrics := by
  obtain ⟨trace, s, hexec, hrun⟩ := performed_run isSome_twoConnections
  exact ⟨trace, s, hexec, connections_served hrun⟩

theorem gets_read_lastSet_two : ∃ trace s, performed coldStart twoConnections = some (trace, s) ∧
    Throughout (fun before x => ∀ key, x.command.msgType = 2 →
      PyStr.encodeUtf8 key = some x.command.payload → x.response = getAnswer (lastSet before key))
      (trace.filterMap (exchange (n := 1) (fun _ => 0) fun _ => [])) := by
  obtain ⟨trace, s, hexec, hrun⟩ := performed_run isSome_twoConnections
  exact ⟨trace, s, hexec, gets_read_lastSet hrun⟩

end HyperionServer

end PythonPortfolio.Hyperion
