import PythonPortfolio.Library.Utf8
import PythonPortfolio.Hyperion.Recovery

/-!
# The commands of the Hyperion server

`process_command` answers one complete command. The lock of a shard is never held
across a suspension, so a command runs to its end before the next one, whatever
connection that comes from, and a history is a sequence of commands. Answers are
bare bytes: a value, a report and an error text look alike to the client. The
texts of the exceptions are a parameter.
-/

namespace PythonPortfolio.Hyperion

open Library Library.BigEndian

/-- `s.encode()` of an ASCII string. -/
def ascii (s : String) : Bytes := s.toList.map fun c => UInt8.ofNat c.toNat

inductive CommandError where
  | unicodeDecodeError (bs : Bytes)
  | engine (e : EngineError)

/-- A complete command, with what the operating system answers while it runs. -/
structure Command where
  msgType : Nat
  payload : Bytes
  env : Environment

/-- The byte of `'|'`. -/
def separator : UInt8 := 0x7C

/-- `n / 2 ** 20` to two decimals, ties to even, as `:.2f` prints it. -/
def megabytes (n : Nat) : String :=
  let q := 100 * n / 2 ^ 20
  let r := 100 * n % 2 ^ 20
  let hundredths := if 2 * r > 2 ^ 20 ∨ (2 * r = 2 ^ 20 ∧ q % 2 = 1) then q + 1 else q
  let cents := hundredths % 100
  toString (hundredths / 100) ++ "." ++ (if cents < 10 then "0" else "") ++ toString cents

section Process

variable {n : Nat} [NeZero n] (crc32 : Bytes → UInt32) (text : CommandError → Bytes)

def HyperionEngine.metricsReport (e : HyperionEngine n) : String :=
  "--- Engine Stats ---\n" ++
    "Writes: " ++ toString e.metrics.opsWrite ++ "\n" ++
    "Reads:  " ++ toString e.metrics.opsRead ++ "\n" ++
    "Bytes:  " ++ megabytes e.metrics.bytesWritten ++ " MB\n" ++
    "SeqID:  " ++ toString e.sequenceId

/-- `CMD TYPE 1: SET (Key|Value)`. -/
def processSet (e : HyperionEngine n) (r : Command) : Bytes × HyperionEngine n :=
  match r.payload.idxOf? separator with
  | none => (ascii "ERR_FORMAT", e)
  | some sepIdx =>
    match PyStr.decodeUtf8 (r.payload.take sepIdx) with
    | none => (ascii "ERR_SET:" ++ text (.unicodeDecodeError (r.payload.take sepIdx)), e)
    | some key =>
      match e.write crc32 key (r.payload.drop (sepIdx + 1)) r.env with
      | (.error err, e) => (ascii "ERR_SET:" ++ text (.engine err), e)
      | (.ok seq, e) => (ascii "OK_SET:" ++ ascii (toString seq), e)

/-- `CMD TYPE 2: GET (Key)`; the empty value is as false as `None`. -/
def processGet (e : HyperionEngine n) (r : Command) : Bytes × HyperionEngine n :=
  match PyStr.decodeUtf8 r.payload with
  | none => (ascii "ERR_INTERNAL", e)
  | some key =>
    match e.read crc32 key with
    | (.error _, e) => (ascii "ERR_INTERNAL", e)
    | (.ok none, e) => (ascii "ERR_NOT_FOUND", e)
    | (.ok (some val), e) => (if val ≠ [] then val else ascii "ERR_NOT_FOUND", e)

def processCommand (e : HyperionEngine n) (r : Command) : Bytes × HyperionEngine n :=
  match r.msgType with
  | 1 => processSet crc32 text e r
  | 2 => processGet crc32 e r
  | 99 => (ascii e.metricsReport, e)
  | _ => (ascii "ERR_UNKNOWN_CMD", e)

/-- The engine after a command. -/
def afterCommand (e : HyperionEngine n) (r : Command) : HyperionEngine n :=
  (processCommand crc32 text e r).2

end Process

/-- The server from a cold start on any opened log, under any commands. -/
def serverMachine (n : Nat) [NeZero n] (crc32 : Bytes → UInt32) (text : CommandError → Bytes) :
    Machine (HyperionEngine n) Command where
  start e := ∃ wal, e = HyperionEngine.init wal
  step e r := some (afterCommand crc32 text e r)

/-- The key and value that a payload of `SET` carries. -/
def Command.keyValue (r : Command) : Option (PyStr × Bytes) :=
  (r.payload.idxOf? separator).bind fun sepIdx =>
    (PyStr.decodeUtf8 (r.payload.take sepIdx)).map fun key => (key, r.payload.drop (sepIdx + 1))

/-- The command that sets `key`, given by its encoding, to `value`. -/
def Command.set (key value : Bytes) (env : Environment) : Command :=
  ⟨1, key ++ separator :: value, env⟩

def Command.get (key : Bytes) (env : Environment) : Command := ⟨2, key, env⟩

section Register

variable {n : Nat} [NeZero n] {crc32 : Bytes → UInt32} {text : CommandError → Bytes}

/-- What a transition sets, if it is a `SET` that was answered with `OK_SET`. -/
def stored (crc32 : Bytes → UInt32) (text : CommandError → Bytes)
    (t : Transition (HyperionEngine n) Command) : Option (PyStr × Bytes) :=
  if t.event.msgType = 1 ∧ ascii "OK_SET:" <+: (processCommand crc32 text t.pre t.event).1 then
    t.event.keyValue
  else none

/-- The value of the latest successful `SET` of a key. -/
def latest (crc32 : Bytes → UInt32) (text : CommandError → Bytes)
    (trace : List (Transition (HyperionEngine n) Command)) (key : PyStr) : Option Bytes :=
  ((trace.filterMap (stored crc32 text)).filter fun p => p.1 = key).getLast?.map Prod.snd

theorem latest_concat (trace : List (Transition (HyperionEngine n) Command))
    (t : Transition (HyperionEngine n) Command) (key : PyStr) :
    latest crc32 text (trace ++ [t]) key =
      match stored crc32 text t with
      | some (k, v) => if k = key then some v else latest crc32 text trace key
      | none => latest crc32 text trace key := by
  unfold latest
  rw [filterMap_concat, List.filter_append]
  cases stored crc32 text t with
  | none => simp
  | some p =>
    obtain ⟨k, v⟩ := p
    by_cases hk : k = key
    · simp [hk]
    · simp [hk]

/-- A payload with an encoded key before the separator carries that key and value. -/
theorem keyValue_set {key : PyStr} {bs : Bytes} (hk : PyStr.encodeUtf8 key = some bs)
    (hsep : PyChar.scalar '|' ∉ key) (value : Bytes) (env : Environment) :
    (Command.set bs value env).keyValue = some (key, value) := by
  have hnot : separator ∉ bs :=
    PyStr.not_mem_encodeUtf8 hk (d := '|') (by decide) hsep
  have hidx : (bs ++ separator :: value).idxOf? separator = some bs.length := by
    rw [List.idxOf?, List.findIdx?_append, List.findIdx?_eq_none_iff.mpr]
    · simp [List.findIdx?_cons]
    · intro b hb
      have hne : b ≠ separator := fun he => hnot (he ▸ hb)
      simpa using hne
  have hdrop : (bs ++ separator :: value).drop (bs.length + 1) = value := by
    simp
  simp only [Command.keyValue, Command.set, hidx, Option.bind_some, List.take_left,
    PyStr.decodeUtf8_encodeUtf8 hk, Option.map_some, hdrop]

variable (crc32) in
/-- A decoded key has a shard. -/
theorem route_of_decodeUtf8 {bs : Bytes} {key : PyStr} (h : PyStr.decodeUtf8 bs = some key) :
    ∃ i : Fin n, HyperionEngine.route crc32 key = some i := by
  obtain ⟨bs', hbs⟩ := PyStr.encodeUtf8_of_decodeUtf8 h
  exact ⟨_, by rw [HyperionEngine.route, hbs, Option.map_some]⟩

/-- A write under a key that has a shard either stores its value there or changes
nothing a read could see. -/
theorem lookup_write_cases (e : HyperionEngine n) {key : PyStr} {i : Fin n}
    (hr : HyperionEngine.route crc32 key = some i) (value : Bytes) (env : Environment) :
    (∃ seq, (e.write crc32 key value env).1 = .ok seq ∧ ∀ k,
      (e.write crc32 key value env).2.lookup crc32 k =
        if k = key then some value else e.lookup crc32 k) ∨
    ∃ err, (e.write crc32 key value env).1 = .error err ∧ ∀ k,
      (e.write crc32 key value env).2.lookup crc32 k = e.lookup crc32 k := by
  cases hlog : (e.logEntry crc32 value env).1 with
  | ok offset =>
    exact Or.inl ⟨_, HyperionEngine.write_eq_ok crc32 hlog hr,
      HyperionEngine.lookup_write crc32 hlog hr⟩
  | error err =>
    refine Or.inr ⟨.wal err, ?_, HyperionEngine.lookup_write_failed crc32 (Or.inl ⟨err, hlog⟩)⟩
    unfold HyperionEngine.write
    generalize e.logEntry crc32 value env = r at hlog
    obtain ⟨result, e'⟩ := r
    dsimp only at hlog
    subst hlog
    rfl

variable (crc32) in
theorem lookup_read (e : HyperionEngine n) (key k : PyStr) :
    (e.read crc32 key).2.lookup crc32 k = e.lookup crc32 k := by
  unfold HyperionEngine.read
  split <;> rfl

theorem ok_set_eq : ascii "OK_SET:" = [0x4F, 0x4B, 0x5F, 0x53, 0x45, 0x54, 0x3A] := by decide

/-- No error answer starts like a success. -/
theorem not_ok_set_of_head {bs : Bytes} (h : bs.head? = some 0x45) : ¬ ascii "OK_SET:" <+: bs := by
  intro hx
  obtain ⟨rest, rfl⟩ := hx
  rw [ok_set_eq] at h
  exact absurd (Option.some.inj h) (by decide)

variable (crc32 text) in
/-- What a `SET` does and how it is answered. -/
theorem processSet_cases (e : HyperionEngine n) (r : Command) :
    (∃ key v seq, r.keyValue = some (key, v) ∧
      (processSet crc32 text e r).1 = ascii "OK_SET:" ++ ascii (toString (seq : Int)) ∧
      ∀ k, (processSet crc32 text e r).2.lookup crc32 k =
        if k = key then some v else e.lookup crc32 k) ∨
    (¬ ascii "OK_SET:" <+: (processSet crc32 text e r).1 ∧
      ∀ k, (processSet crc32 text e r).2.lookup crc32 k = e.lookup crc32 k) := by
  unfold processSet Command.keyValue
  cases r.payload.idxOf? separator with
  | none =>
    have herr : (ascii "ERR_FORMAT").head? = some 0x45 := by decide
    exact Or.inr ⟨not_ok_set_of_head herr, fun _ => rfl⟩
  | some sepIdx =>
    dsimp only [Option.bind_some]
    cases hkey : PyStr.decodeUtf8 (r.payload.take sepIdx) with
    | none =>
      refine Or.inr ⟨not_ok_set_of_head ?_, fun _ => rfl⟩
      exact List.head?_append_of_ne_nil _ (by decide)
    | some key =>
      obtain ⟨i, hi⟩ := route_of_decodeUtf8 (n := n) crc32 hkey
      have hcases := lookup_write_cases e hi (r.payload.drop (sepIdx + 1)) r.env
      dsimp only
      generalize e.write crc32 key (r.payload.drop (sepIdx + 1)) r.env = w at hcases
      obtain ⟨result, e'⟩ := w
      rcases hcases with ⟨seq, rfl, hlookup⟩ | ⟨err, rfl, hlookup⟩
      · exact Or.inl ⟨key, _, seq, rfl, rfl, hlookup⟩
      · refine Or.inr ⟨not_ok_set_of_head ?_, hlookup⟩
        exact List.head?_append_of_ne_nil _ (by decide)

theorem lookup_processGet (e : HyperionEngine n) (r : Command) (k : PyStr) :
    (processGet crc32 e r).2.lookup crc32 k = e.lookup crc32 k := by
  unfold processGet
  split
  · rfl
  · next key _ =>
    have hread := lookup_read crc32 e key k
    generalize e.read crc32 key = w at hread
    obtain ⟨result, e'⟩ := w
    split <;> next h => cases h; exact hread

/-- One command: the register of each key holds what the command stored under it, or
what it held. -/
theorem lookup_processCommand (e : HyperionEngine n) (r : Command) (k : PyStr) :
    (afterCommand crc32 text e r).lookup crc32 k =
      match stored crc32 text ⟨e, r, afterCommand crc32 text e r⟩ with
      | some (key, v) => if key = k then some v else e.lookup crc32 k
      | none => e.lookup crc32 k := by
  by_cases h1 : r.msgType = 1
  · have hcmd : processCommand crc32 text e r = processSet crc32 text e r := by
      simp only [processCommand, h1]
    unfold stored afterCommand
    dsimp only
    rw [hcmd]
    rcases processSet_cases crc32 text e r with
      ⟨key, v, seq, hkv, hans, hlookup⟩ | ⟨hno, hlookup⟩
    · rw [if_pos ⟨h1, by rw [hans]; exact List.prefix_append _ _⟩, hkv, hlookup]
      by_cases hk : k = key
      · simp [hk]
      · have hk' : ¬ key = k := fun he => hk he.symm
        simp [hk, hk']
    · rw [if_neg fun h => hno h.2, hlookup]
  · have hnone : stored crc32 text ⟨e, r, afterCommand crc32 text e r⟩ = none :=
      if_neg fun h => h1 h.1
    rw [hnone]
    unfold afterCommand processCommand
    split
    · next h => exact absurd h h1
    · exact lookup_processGet e r k
    · rfl
    · rfl

/-- Every key holds the value of its latest successful `SET`. -/
theorem lookup_run {e₀ e : HyperionEngine n} {trace : List (Transition (HyperionEngine n) Command)}
    (h : (serverMachine n crc32 text).Run e₀ trace e) (k : PyStr) :
    e.lookup crc32 k = latest crc32 text trace k := by
  induction h with
  | init h =>
    obtain ⟨wal, rfl⟩ := h
    unfold HyperionEngine.lookup latest
    split <;> rfl
  | @next trace e e' r _ hs ih =>
    obtain rfl : afterCommand crc32 text e r = e' := Option.some.inj hs
    rw [latest_concat, lookup_processCommand, ih]

/-- The answer to a `GET`, from what the key holds. -/
theorem answer_get {e : HyperionEngine n} {key : PyStr} {bs : Bytes}
    (hk : PyStr.encodeUtf8 key = some bs) (env : Environment) :
    (processCommand crc32 text e (.get bs env)).1 =
      match e.lookup crc32 key with
      | none => ascii "ERR_NOT_FOUND"
      | some v => if v ≠ [] then v else ascii "ERR_NOT_FOUND" := by
  have hdecode := PyStr.decodeUtf8_encodeUtf8 hk
  obtain ⟨i, hi⟩ := route_of_decodeUtf8 (n := n) crc32 hdecode
  have hread := HyperionEngine.read_eq_ok crc32 hi e
  change (processGet crc32 e (.get bs env)).1 = _
  unfold processGet
  simp only [Command.get, hdecode]
  generalize e.read crc32 key = w at hread
  obtain ⟨result, e'⟩ := w
  dsimp only at hread
  subst hread
  cases e.lookup crc32 key <;> rfl

/-- A `SET` that the log accepts is successful. -/
theorem stored_set {e e' : HyperionEngine n} {key : PyStr} {bs : Bytes}
    (hk : PyStr.encodeUtf8 key = some bs) (hsep : PyChar.scalar '|' ∉ key) {value : Bytes}
    {env : Environment} {offset : Nat} (hlog : (e.logEntry crc32 value env).1 = .ok offset) :
    stored crc32 text ⟨e, .set bs value env, e'⟩ = some (key, value) := by
  have hkv := keyValue_set hk hsep value env
  obtain ⟨i, hi⟩ :=
    route_of_decodeUtf8 (n := n) crc32 (PyStr.decodeUtf8_encodeUtf8 hk)
  have hwrite := HyperionEngine.write_eq_ok crc32 hlog hi
  obtain ⟨sepIdx, hidx, hmap⟩ := Option.bind_eq_some_iff.mp hkv
  obtain ⟨key', hdecode, hpair⟩ := Option.map_eq_some_iff.mp hmap
  obtain ⟨hkey, hvalue⟩ := Prod.mk.inj hpair
  subst hkey
  have hans : ascii "OK_SET:" <+: (processCommand crc32 text e (.set bs value env)).1 := by
    change _ <+: (processSet crc32 text e (.set bs value env)).1
    unfold processSet
    rw [hidx]
    dsimp only
    rw [hdecode]
    dsimp only
    rw [hvalue]
    change _ <+: (match e.write crc32 key' value env with
      | (.error err, e) => (ascii "ERR_SET:" ++ text (.engine err), e)
      | (.ok seq, e) => (ascii "OK_SET:" ++ ascii (toString seq), e)).1
    generalize e.write crc32 key' value env = w at hwrite
    obtain ⟨result, e''⟩ := w
    dsimp only at hwrite
    subst hwrite
    exact List.prefix_append _ _
  exact (if_pos ⟨rfl, hans⟩).trans hkv

/-- `SET` and `GET` form a register, apart from the empty value: a command sets exactly
its key and value, a `GET` answers the value of the latest successful `SET` of its
key if that is not empty, and the answer for a key never set is a fixed text, which
no other value is answered with. -/
theorem set_get_register {e₀ e : HyperionEngine n}
    {trace : List (Transition (HyperionEngine n) Command)}
    (h : (serverMachine n crc32 text).Run e₀ trace e) {key : PyStr} {bs : Bytes}
    (hk : PyStr.encodeUtf8 key = some bs) (hsep : PyChar.scalar '|' ∉ key) (env : Environment) :
    (∀ value, (Command.set bs value env).keyValue = some (key, value)) ∧
    (∀ value, latest crc32 text trace key = some value → value ≠ [] →
      (processCommand crc32 text e (.get bs env)).1 = value) ∧
    (latest crc32 text trace key = none →
      (processCommand crc32 text e (.get bs env)).1 = ascii "ERR_NOT_FOUND") ∧
    (∀ value, latest crc32 text trace key = some value → value ≠ [] →
      value ≠ ascii "ERR_NOT_FOUND" →
      (processCommand crc32 text e (.get bs env)).1 ≠ ascii "ERR_NOT_FOUND") := by
  have hget : ∀ value, latest crc32 text trace key = some value → value ≠ [] →
      (processCommand crc32 text e (.get bs env)).1 = value := by
    intro value hv hne
    rw [answer_get hk, lookup_run h, hv]
    exact if_pos hne
  refine ⟨fun value => keyValue_set hk hsep value env, hget, fun hnone => ?_,
    fun value hv hne hd => ?_⟩
  · rw [answer_get hk, lookup_run h, hnone]
  · rw [hget value hv hne]
    exact hd

end Register

/-- An engine with one shard on an empty segment. -/
def coldStart : HyperionEngine 1 := .init ⟨.empty, ⟨"wal_0.log", 0, false⟩, ["wal_0.log"]⟩

def quietEnv : Environment := ⟨0, 0, none⟩

/-- `SET k|…` with a value. -/
def setK (value : Bytes) : Command := .set [0x6B] value quietEnv

theorem encodeUtf8_k : PyStr.encodeUtf8 [.scalar 'k'] = some [0x6B] := by decide

/-- The cold engine after that command. -/
def afterSetK (value : Bytes) : HyperionEngine 1 :=
  afterCommand (fun _ => 0) (fun _ => []) coldStart (setK value)

/-- The history of that command. -/
abbrev setKHistory (value : Bytes) : List (Transition (HyperionEngine 1) Command) :=
  [] ++ [⟨coldStart, setK value, afterSetK value⟩]

theorem run_setK (value : Bytes) : (serverMachine 1 (fun _ => 0) fun _ => []).Run coldStart
    (setKHistory value) (afterSetK value) :=
  .next (.init ⟨_, rfl⟩) rfl

theorem logEntry_coldStart {value : Bytes} (hlen : value.length ≤ 1000) :
    (coldStart.logEntry (fun _ => 0) value quietEnv).1 = .ok 0 := by
  have hseq : coldStart.sequenceId = (0 : Nat) := rfl
  obtain ⟨packet, hframe⟩ := (HyperionEngine.frame_nextEntry (fun _ => 0) hseq value quietEnv).mpr
    ⟨by omega, by omega⟩
  have hsize := length_frame hframe
  have hfit : coldStart.wal.currentSegment.writeCursor + packet.length ≤ segmentSize := by
    change 0 + packet.length ≤ 64 * 1024 * 1024
    omega
  rw [(HyperionEngine.logEntry_eq _ _ _ _).1, WalManager.writeEntry, hframe]
  dsimp only
  rw [WalManager.append_ok rfl hfit]
  rfl

theorem latest_setK {value : Bytes} (hlen : value.length ≤ 1000) (key : PyStr) :
    latest (fun _ => 0) (fun _ => []) (setKHistory value) key =
      if [.scalar 'k'] = key then some value else none := by
  have hstored : stored (fun _ => 0) (fun _ => []) ⟨coldStart, setK value, afterSetK value⟩ =
      some ([.scalar 'k'], value) := stored_set encodeUtf8_k (by decide) (logEntry_coldStart hlen)
  rw [latest_concat, hstored]
  rfl

theorem get_after_set :
    (processCommand (fun _ => 0) (fun _ => []) (afterSetK [0x76]) (.get [0x6B] quietEnv)).1 =
      [0x76] :=
  (set_get_register (run_setK [0x76]) encodeUtf8_k (by decide) quietEnv).2.1 [0x76]
    ((latest_setK (by decide) _).trans (if_pos rfl)) (by decide)

/-- A key that holds the text of the error is answered like a key never set. -/
theorem not_found_as_value : ¬ ∀ (n : Nat) [NeZero n] (crc32 : Bytes → UInt32)
    (text : CommandError → Bytes) (e₀ e : HyperionEngine n)
    (trace : List (Transition (HyperionEngine n) Command)) (key key' : PyStr) (bs bs' value : Bytes)
    (env : Environment), (serverMachine n crc32 text).Run e₀ trace e →
      PyStr.encodeUtf8 key = some bs → PyStr.encodeUtf8 key' = some bs' →
      PyChar.scalar '|' ∉ key → PyChar.scalar '|' ∉ key' →
      latest crc32 text trace key = some value → latest crc32 text trace key' = none →
      (processCommand crc32 text e (.get bs env)).1 = value ∧
        (processCommand crc32 text e (.get bs env)).1 ≠
          (processCommand crc32 text e (.get bs' env)).1 := by
  intro hall
  have hrun := run_setK (ascii "ERR_NOT_FOUND")
  have hlatest := fun key => latest_setK (show (ascii "ERR_NOT_FOUND").length ≤ 1000 by decide) key
  have hm : PyStr.encodeUtf8 [.scalar 'm'] = some [0x6D] := by decide
  have hother := (hlatest [.scalar 'm']).trans (if_neg (by decide))
  obtain ⟨hget, hne⟩ := hall 1 (fun _ => 0) (fun _ => []) _ _ _ [.scalar 'k'] [.scalar 'm'] _ _ _
    quietEnv hrun encodeUtf8_k hm (by decide) (by decide) ((hlatest _).trans (if_pos rfl)) hother
  refine hne (hget.trans ?_)
  rw [answer_get hm, lookup_run hrun, hother]

end PythonPortfolio.Hyperion
