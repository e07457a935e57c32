import PythonPortfolio.Ouroboros.Jumps

/-!
# Which compiled code can be decoded

The tokens of a source decide the pieces of its code: the opcode of a mnemonic on its
own, or an opcode with its two operand bytes behind `PUSH`, `STORE` or `LOAD`. The
compiler takes every attribute of `OpCode` for a mnemonic on its own, also those that
the machine has no case for and those whose operand it reads. As long as the machine
fetches no such byte it goes from piece to piece and decodes each.
-/

namespace PythonPortfolio.Ouroboros

open Library Library.BigEndian

/-! ## The pieces of the code -/

inductive Piece where
  | mnemonic (op : OpCode)
  | operand (op : OpCode)
deriving DecidableEq

def Piece.size : Piece → Nat
  | .mnemonic _ => 1
  | .operand _ => 3

/-- What a token in the place of an instruction puts into the code. -/
def piece? (token : Token) : Option Piece :=
  if token.typ = .identifier then
    match OpCode.attribute? (PyStr.upper token.val) with
    | some op => some (.mnemonic op)
    | none =>
      if PyStr.upper token.val = PyStr.lit "PUSH" then some (.operand .loadConst)
      else if PyStr.upper token.val = PyStr.lit "STORE" then some (.operand .storeName)
      else if PyStr.upper token.val = PyStr.lit "LOAD" then some (.operand .loadName)
      else none
  else none

/-- The pieces of a token list: a label is passed over, an operand goes with its piece. -/
def pieces : List Token → List Piece
  | [] => []
  | [token] => (piece? token).toList
  | token :: next :: rest =>
    if next.val = PyStr.lit ":" then pieces rest
    else match piece? token with
      | some (.operand op) => .operand op :: pieces rest
      | some (.mnemonic op) => .mnemonic op :: pieces (next :: rest)
      | none => pieces (next :: rest)

/-- The mnemonic `op` stands on its own, with its byte at `ip`. -/
def BareAt (ps : List Piece) (op : OpCode) (ip : Nat) : Prop :=
  ∃ before after, ps = before ++ .mnemonic op :: after ∧ (before.map Piece.size).sum = ip

/-- The opcodes that the machine has no case for. -/
def caseless : List OpCode := [.div, .call, .ret]

/-- The opcodes behind which the machine reads an operand. -/
def withOperand : List OpCode := [.loadConst, .loadName, .storeName, .jmp, .jmpIfFalse]

/-! ## What a run fetches and how it ends -/

namespace VirtualMachine

/-- A fresh machine after the first line of `run`. -/
def started : VirtualMachine :=
  ({ init with ip := 0 } : VirtualMachine).println (PyStr.lit "\n--- VM EXECUTION START ---")

/-- The places from which the first `fuel` turns of the loop fetch an opcode. -/
def fetches (co : CodeObject) : Nat → VirtualMachine → List Nat
  | 0, _ => []
  | fuel + 1, vm =>
    match co.coCode[vm.ip]? with
    | none => []
    | some op =>
      match ({ vm with ip := vm.ip + 1 } : VirtualMachine).execute co op with
      | .next vm' => vm.ip :: fetches co fuel vm'
      | _ => [vm.ip]

end VirtualMachine

/-- An unknown opcode, an operand behind the end of the code, an index out of range. -/
def VmError.Undecodable : VmError → Prop
  | .runtimeError _ | .codeIndex | .constIndex | .nameIndex => True
  | _ => False

/-- No run of a fresh machine meets something it cannot decode. -/
def Decodes (co : CodeObject) : Prop :=
  ∀ fuel vm err, VirtualMachine.init.run co fuel = some (vm, some err) → ¬ err.Undecodable

/-- Some turn of the run fetches the byte of a mnemonic that stands on its own and is one
of `ops`. -/
def FetchesBare (ops : List OpCode) (source : PyStr) (co : CodeObject) : Prop :=
  ∃ fuel, ∃ ip ∈ VirtualMachine.fetches co fuel .started, ∃ op ∈ ops,
    BareAt (pieces (tokenize source)) op ip

/-! ## What the compiler emits -/

/-- The bytes encode the pieces, with operands that are indices of the pools. -/
inductive Encodes (consts names : Nat) : List Piece → Bytes → Prop
  | nil : Encodes consts names [] []
  | mnemonic {ps : List Piece} {code : Bytes} (op : OpCode) (h : Encodes consts names ps code) :
      Encodes consts names (.mnemonic op :: ps) (op.byte :: code)
  | const {ps : List Piece} {code : Bytes} {idx : Nat} (hidx : idx < consts)
      (h : Encodes consts names ps code) :
      Encodes consts names (.operand .loadConst :: ps)
        (OpCode.loadConst.byte :: (toBytes 2 idx ++ code))
  | name {ps : List Piece} {code : Bytes} {op : OpCode} {idx : Nat}
      (hop : op = .loadName ∨ op = .storeName) (hidx : idx < names)
      (h : Encodes consts names ps code) :
      Encodes consts names (.operand op :: ps) (op.byte :: (toBytes 2 idx ++ code))

namespace Encodes

variable {consts names consts' names' : Nat} {ps qs : List Piece} {code code' : Bytes}

theorem mono (h : Encodes consts names ps code) (hc : consts ≤ consts') (hn : names ≤ names') :
    Encodes consts' names' ps code := by
  induction h with
  | nil => exact .nil
  | mnemonic op _ ih => exact .mnemonic op ih
  | const hidx _ ih => exact .const (hidx.trans_le hc) ih
  | name hop hidx _ ih => exact .name hop (hidx.trans_le hn) ih

theorem append (h : Encodes consts names ps code) (h' : Encodes consts names qs code') :
    Encodes consts names (ps ++ qs) (code ++ code') := by
  induction h with
  | nil => exact h'
  | mnemonic op _ ih => exact .mnemonic op ih
  | const hidx _ ih =>
    rw [List.cons_append, List.cons_append, List.append_assoc]
    exact .const hidx ih
  | name hop hidx _ ih =>
    rw [List.cons_append, List.cons_append, List.append_assoc]
    exact .name hop hidx ih

end Encodes

namespace Compiler

/-- The compiler has emitted the pieces. -/
structure Emits (c c' : Compiler) (ps : List Piece) : Prop where
  jumpsToFix : c'.jumpsToFix = c.jumpsToFix
  consts : c.consts <+: c'.consts
  names : c.names <+: c'.names
  code : ∃ code, c'.code = c.code ++ code ∧ Encodes c'.consts.length c'.names.length ps code

theorem emits_nothing {c c' : Compiler} (hjumps : c'.jumpsToFix = c.jumpsToFix)
    (hconsts : c'.consts = c.consts) (hnames : c'.names = c.names) (hcode : c'.code = c.code) :
    Emits c c' [] :=
  ⟨hjumps, hconsts ▸ List.prefix_refl _, hnames ▸ List.prefix_refl _, [],
    hcode.trans (List.append_nil _).symm, .nil⟩

theorem Emits.trans {c c' c'' : Compiler} {ps qs : List Piece} (h : Emits c c' ps)
    (h' : Emits c' c'' qs) : Emits c c'' (ps ++ qs) := by
  obtain ⟨code, hcode, hps⟩ := h.code
  obtain ⟨code', hcode', hqs⟩ := h'.code
  refine ⟨h'.jumpsToFix.trans h.jumpsToFix, h.consts.trans h'.consts, h.names.trans h'.names,
    code ++ code', ?_, ?_⟩
  · rw [hcode', hcode, List.append_assoc]
  · exact (hps.mono h'.consts.length_le h'.names.length_le).append hqs

theorem emits_emit (c : Compiler) (op : OpCode) : Emits c (c.emit op) [.mnemonic op] :=
  ⟨rfl, List.prefix_refl _, List.prefix_refl _, [op.byte], rfl, .mnemonic op .nil⟩

theorem poolIndex_intern_lt {α : Type} [DecidableEq α] (pool : List α) (a : α) :
    poolIndex (intern pool a).1 a < (intern pool a).1.length :=
  List.idxOf_lt_length_of_mem (mem_intern.mpr (Or.inr rfl))

theorem emits_emitConst (c : Compiler) (val : Literal) :
    Emits c (c.emitConst val) [.operand .loadConst] := by
  rw [emitConst_eq]
  refine ⟨rfl, prefix_intern _ _, List.prefix_refl _, _, rfl, ?_⟩
  have h := poolIndex_intern_lt c.consts val
  have : Encodes (intern c.consts val).1.length c.names.length [.operand .loadConst] _ :=
    .const h .nil
  rwa [List.append_nil] at this

theorem emits_emitName (c : Compiler) {op : OpCode} (hop : op = .loadName ∨ op = .storeName)
    (name : PyStr) : Emits c (c.emitName op name) [.operand op] := by
  rw [emitName_eq]
  refine ⟨rfl, List.prefix_refl _, prefix_intern _ _, _, rfl, ?_⟩
  have h := poolIndex_intern_lt c.names name
  have : Encodes c.consts.length (intern c.names name).1.length [.operand op] _ :=
    .name hop h .nil
  rwa [List.append_nil] at this

/-- An instruction that is compiled emits the piece of its token. -/
theorem instruction_emits {c c' : Compiler} {token : Token} {next : Option Token}
    {consumed : Bool} (h : c.instruction token next = .ok (consumed, c')) :
    Emits c c' (piece? token).toList ∧
      (consumed = true ↔ ∃ op, piece? token = some (.operand op)) := by
  have hstep := c.instruction_step token next
  rw [h] at hstep
  cases hstep with
  | opcode op htyp hop =>
    have hp : piece? token = some (.mnemonic op) := by rw [piece?, if_pos htyp, hop]
    rw [hp]
    exact ⟨emits_emit c op, by simp⟩
  | push arg val htyp hname =>
    have hp : piece? token = some (.operand .loadConst) := by
      rw [piece?, if_pos htyp, hname]
      rfl
    rw [hp]
    exact ⟨emits_emitConst c val, by simp⟩
  | store arg htyp hname =>
    have hp : piece? token = some (.operand .storeName) := by
      rw [piece?, if_pos htyp, hname]
      rfl
    rw [hp]
    exact ⟨emits_emitName c (Or.inr rfl) arg.val, by simp⟩
  | load arg htyp hname =>
    have hp : piece? token = some (.operand .loadName) := by
      rw [piece?, if_pos htyp, hname]
      rfl
    rw [hp]
    exact ⟨emits_emitName c (Or.inl rfl) arg.val, by simp⟩
  | unknown htyp hop hname =>
    obtain ⟨hpush, hstore, hload⟩ := hname
    have hp : piece? token = none := by
      rw [piece?, if_pos htyp, hop]
      dsimp only
      rw [if_neg hpush, if_neg hstore, if_neg hload]
    rw [hp]
    exact ⟨emits_nothing rfl rfl rfl rfl, by simp⟩
  | other htyp =>
    rw [piece?, if_neg htyp]
    exact ⟨emits_nothing rfl rfl rfl rfl, by simp⟩

/-- The walk emits the pieces of the tokens and puts no jump aside. -/
theorem generate_emits {c c' : Compiler} {tokens : List Token}
    (h : c.generate tokens = .ok c') : Emits c c' (pieces tokens) := by
  fun_induction Compiler.generate c tokens with
  | case1 c =>
    cases h
    exact emits_nothing rfl rfl rfl rfl
  | case2 c token =>
    cases hi : c.instruction token none with
    | error e =>
      rw [hi] at h
      cases h
    | ok r =>
      rw [hi] at h
      obtain ⟨consumed, c₁⟩ := r
      cases h
      exact (instruction_emits hi).1
  | case3 c token next rest hcolon ih =>
    rw [pieces, if_pos hcolon]
    obtain ⟨hjumps, hconsts, hnames, hcode⟩ := ih h
    exact ⟨hjumps, hconsts, hnames, hcode⟩
  | case4 c token next rest hcolon e hi => cases h
  | case5 c token next rest hcolon c₁ hi ih =>
    obtain ⟨hemits, hconsumed⟩ := instruction_emits hi
    obtain ⟨op, hop⟩ := hconsumed.mp rfl
    rw [hop] at hemits
    rw [pieces, if_neg hcolon, hop]
    exact hemits.trans (ih h)
  | case6 c token next rest hcolon c₁ hi ih =>
    obtain ⟨hemits, hconsumed⟩ := instruction_emits hi
    rw [pieces, if_neg hcolon]
    cases hp : piece? token with
    | none =>
      rw [hp] at hemits
      exact hemits.trans (ih h)
    | some p =>
      cases p with
      | mnemonic op =>
        rw [hp] at hemits
        exact hemits.trans (ih h)
      | operand op =>
        have := hconsumed.mpr ⟨op, hp⟩
        cases this

/-- The code object encodes the pieces of its source. -/
theorem compile_encodes {source : PyStr} {co : CodeObject}
    (h : Compiler.init.compile source = .ok co) :
    Encodes co.coConsts.length co.coNames.length (pieces (tokenize source)) co.coCode := by
  unfold Compiler.compile at h
  cases hg : Compiler.init.generate (tokenize source) with
  | error e =>
    rw [hg] at h
    cases h
  | ok c =>
    rw [hg] at h
    obtain ⟨hjumps, -, -, code, hcode, hencodes⟩ := generate_emits hg
    have hnil : c.jumpsToFix = [] := hjumps
    dsimp only at h
    rw [hnil] at h
    cases h
    have hcode' : c.code = code := hcode
    rw [hcode']
    exact hencodes

end Compiler

/-! ## What the machine decodes -/

/-- An instruction ends decoded, with the pointer at `ip` if the loop goes on. -/
def Proceeds (ip : Nat) : Step → Prop
  | .next vm => vm.ip = ip
  | .leave _ => True
  | .raise err _ => ¬ err.Undecodable

section Execute

variable {vm : VirtualMachine} {co : CodeObject} {ip : Nat}

theorem proceeds_pop (hip : vm.ip = ip) {k : Value → VirtualMachine → Step}
    (hk : ∀ val vm, vm.ip = ip → Proceeds ip (k val vm)) : Proceeds ip (vm.pop k) := by
  unfold VirtualMachine.pop
  cases vm.stack with
  | nil => exact id
  | cons val stack => exact hk val _ hip

theorem proceeds_binary (hip : vm.ip = ip) (f : Value → Value → Except OperandError Value) :
    Proceeds ip (vm.binary f) := by
  refine proceeds_pop hip fun b vm hip => proceeds_pop hip fun a vm hip => ?_
  cases f a b with
  | ok val => exact hip
  | error err => exact id

/-- A mnemonic that the machine has a case for and that takes no operand. -/
theorem execute_mnemonic {op : OpCode} (hcase : op ∉ caseless) (hplain : op ∉ withOperand) :
    Proceeds vm.ip (vm.execute co op.byte) := by
  unfold VirtualMachine.execute
  rw [OpCode.ofByte?_byte]
  cases op with
  | add | sub | mul | eq => exact proceeds_binary rfl _
  | print => exact proceeds_pop rfl fun _ _ hip => hip
  | halt => exact trivial
  | div | call | ret => exact absurd (by decide) hcase
  | loadConst | loadName | storeName | jmp | jmpIfFalse => exact absurd (by decide) hplain

theorem mod_lt {idx n : Nat} (h : idx < n) : idx % 65536 < n := (Nat.mod_le _ _).trans_lt h

theorem execute_const {idx : Nat} {rest : Bytes}
    (hcode : co.coCode.drop vm.ip = toBytes 2 idx ++ rest) (hidx : idx < co.coConsts.length) :
    Proceeds (vm.ip + 2) (vm.execute co OpCode.loadConst.byte) := by
  rw [execute_loadConst hcode (List.getElem?_eq_getElem (mod_lt hidx))]
  rfl

theorem execute_name {op : OpCode} {idx : Nat} {rest : Bytes}
    (hop : op = .loadName ∨ op = .storeName)
    (hcode : co.coCode.drop vm.ip = toBytes 2 idx ++ rest) (hidx : idx < co.coNames.length) :
    Proceeds (vm.ip + 2) (vm.execute co op.byte) := by
  have hget := List.getElem?_eq_getElem (mod_lt hidx)
  rcases hop with rfl | rfl
  · rw [execute_loadName hcode hget]
    split
    · exact id
    · rfl
  · rw [execute_storeName hcode hget]
    exact proceeds_pop rfl fun _ _ hip => hip

/-- An opcode without a case stops the machine. -/
theorem execute_caseless (vm : VirtualMachine) (co : CodeObject) {op : OpCode}
    (hop : op ∈ caseless) :
    ∃ message, vm.execute co op.byte = .raise (.runtimeError message) vm := by
  unfold VirtualMachine.execute
  rw [OpCode.ofByte?_byte]
  cases op with
  | div | call | ret => exact ⟨_, rfl⟩
  | loadConst | loadName | storeName | add | sub | mul | eq | jmp | jmpIfFalse | print | halt =>
    exact absurd hop (by decide)

end Execute

/-- The pointer stands before the pieces `rest`. -/
def Aligned (co : CodeObject) (ps rest : List Piece) (ip : Nat) : Prop :=
  ∃ before, ps = before ++ rest ∧ (before.map Piece.size).sum = ip ∧
    Encodes co.coConsts.length co.coNames.length rest (co.coCode.drop ip)

section Run

variable {co : CodeObject} {ps : List Piece}

/-- From the beginning of a piece the machine decodes it and proceeds to the next. -/
theorem execute_aligned {p : Piece} {rest : List Piece} {vm : VirtualMachine}
    (h : Aligned co ps (p :: rest) vm.ip)
    (hbare : ∀ op ∈ caseless ++ withOperand, ¬ BareAt ps op vm.ip) :
    ∃ op ip, co.coCode[vm.ip]? = some op ∧ Aligned co ps rest ip ∧
      Proceeds ip (({ vm with ip := vm.ip + 1 } : VirtualMachine).execute co op) := by
  obtain ⟨before, hps, hip, hcode⟩ := h
  have hsum : ((before ++ [p]).map Piece.size).sum = vm.ip + p.size := by simp [hip]
  have hps' : ps = (before ++ [p]) ++ rest := by simp [hps]
  generalize hbytes : co.coCode.drop vm.ip = bytes at hcode
  cases hcode with
  | @mnemonic _ code op hrest =>
    obtain ⟨hop, hdrop⟩ := drop_eq_cons hbytes
    have hnot : op ∉ caseless ++ withOperand := fun hmem =>
      hbare op hmem ⟨before, rest, hps, hip⟩
    rw [List.mem_append, not_or] at hnot
    exact ⟨op.byte, vm.ip + 1, hop, ⟨before ++ [.mnemonic op], hps', hsum, hdrop ▸ hrest⟩,
      execute_mnemonic hnot.1 hnot.2⟩
  | @const _ code idx hidx hrest =>
    obtain ⟨hop, hdrop⟩ := drop_eq_cons hbytes
    have hdrop' : co.coCode.drop (vm.ip + 3) = code := by
      rw [← List.drop_drop (i := 2), hdrop]
      rfl
    exact ⟨_, vm.ip + 3, hop, ⟨before ++ [.operand .loadConst], hps', hsum, hdrop' ▸ hrest⟩,
      execute_const hdrop hidx⟩
  | @name _ code op idx hname hidx hrest =>
    obtain ⟨hop, hdrop⟩ := drop_eq_cons hbytes
    have hdrop' : co.coCode.drop (vm.ip + 3) = code := by
      rw [← List.drop_drop (i := 2), hdrop]
      rfl
    exact ⟨_, vm.ip + 3, hop, ⟨before ++ [.operand op], hps', hsum, hdrop' ▸ hrest⟩,
      execute_name hname hdrop hidx⟩

/-- A turn fetches from where the pointer stands, the turns after it from where they do. -/
theorem fetches_succ (fuel : Nat) {vm : VirtualMachine} {op : UInt8}
    (hop : co.coCode[vm.ip]? = some op) :
    vm.ip ∈ VirtualMachine.fetches co (fuel + 1) vm ∧
      ∀ vm', ({ vm with ip := vm.ip + 1 } : VirtualMachine).execute co op = .next vm' →
        VirtualMachine.fetches co (fuel + 1) vm = vm.ip :: VirtualMachine.fetches co fuel vm' := by
  rw [VirtualMachine.fetches, hop]
  dsimp only
  cases ({ vm with ip := vm.ip + 1 } : VirtualMachine).execute co op with
  | next vm' =>
    refine ⟨List.mem_cons_self, fun vm'' heq => ?_⟩
    cases heq
    rfl
  | leave | raise => exact ⟨List.mem_cons_self, nofun⟩

/-- The loop decodes piece after piece as long as it fetches no bare opcode. -/
theorem loop_decodes {fuel : Nat} {vm vm' : VirtualMachine} {err : VmError} {rest : List Piece}
    (h : Aligned co ps rest vm.ip)
    (hbare : ∀ ip ∈ VirtualMachine.fetches co fuel vm, ∀ op ∈ caseless ++ withOperand,
      ¬ BareAt ps op ip)
    (hloop : VirtualMachine.loop co fuel vm = some (vm', some err)) : ¬ err.Undecodable := by
  induction fuel generalizing vm rest with
  | zero => cases hloop
  | succ fuel ih =>
    rw [VirtualMachine.loop] at hloop
    cases hop : co.coCode[vm.ip]? with
    | none =>
      rw [hop] at hloop
      cases hloop
    | some op =>
      rw [hop] at hloop
      dsimp only at hloop
      obtain ⟨hmem, hnext⟩ := fetches_succ fuel hop
      cases rest with
      | nil =>
        obtain ⟨before, -, -, hcode⟩ := h
        generalize hbytes : co.coCode.drop vm.ip = bytes at hcode
        cases hcode
        have hnone : co.coCode[vm.ip]? = none :=
          List.getElem?_eq_none (List.drop_eq_nil_iff.mp hbytes)
        rw [hop] at hnone
        cases hnone
      | cons p rest =>
        obtain ⟨op', ip, hop', haligned, hproceeds⟩ := execute_aligned h (hbare _ hmem)
        obtain rfl : op = op' := Option.some.inj (hop.symm.trans hop')
        cases hstep : ({ vm with ip := vm.ip + 1 } : VirtualMachine).execute co op with
        | next vm₁ =>
          rw [hstep] at hloop hproceeds
          obtain rfl : vm₁.ip = ip := hproceeds
          refine ih haligned (fun j hj => hbare j ?_) hloop
          rw [hnext vm₁ hstep]
          exact List.mem_cons_of_mem _ hj
        | leave vm₁ =>
          rw [hstep] at hloop
          cases hloop
        | raise err' vm₁ =>
          rw [hstep] at hloop hproceeds
          cases hloop
          exact hproceeds

/-- The byte of a bare mnemonic is its opcode. -/
theorem encodes_bare {consts names : Nat} {op : OpCode} {ip : Nat} {code : Bytes}
    (h : Encodes consts names ps code) (hbare : BareAt ps op ip) :
    code[ip]? = some op.byte := by
  obtain ⟨before, after, rfl, rfl⟩ := hbare
  induction before generalizing code with
  | nil =>
    cases h
    rfl
  | cons p before ih =>
    have hbytes : ∀ idx, toBytes 2 idx = [UInt8.ofNat (idx / 256), UInt8.ofNat idx] :=
      fun _ => rfl
    cases h with
    | mnemonic _ h => simpa [Piece.size, Nat.add_comm] using ih h
    | const _ h => simpa [Piece.size, Nat.add_comm 3, hbytes] using ih h
    | name _ _ h => simpa [Piece.size, Nat.add_comm 3, hbytes] using ih h

/-- A run that fetches an opcode without a case ends with that error. -/
theorem loop_caseless {fuel ip : Nat} {vm : VirtualMachine} {op : OpCode} (hop : op ∈ caseless)
    (hip : ip ∈ VirtualMachine.fetches co fuel vm) (hbyte : co.coCode[ip]? = some op.byte) :
    ∃ vm' message, VirtualMachine.loop co fuel vm = some (vm', some (.runtimeError message)) := by
  induction fuel generalizing vm with
  | zero => cases hip
  | succ fuel ih =>
    rw [VirtualMachine.loop]
    cases hfetch : co.coCode[vm.ip]? with
    | none =>
      rw [VirtualMachine.fetches, hfetch] at hip
      cases hip
    | some b =>
      dsimp only
      by_cases heq : vm.ip = ip
      · rw [heq, hbyte] at hfetch
        cases hfetch
        obtain ⟨message, hraise⟩ := execute_caseless { vm with ip := vm.ip + 1 } co hop
        rw [hraise]
        exact ⟨_, message, rfl⟩
      · rw [VirtualMachine.fetches, hfetch] at hip
        dsimp only at hip
        cases hstep : ({ vm with ip := vm.ip + 1 } : VirtualMachine).execute co b with
        | next vm₁ =>
          rw [hstep] at hip
          exact ih ((List.mem_cons.mp hip).resolve_left fun he => heq he.symm)
        | leave vm₁ =>
          rw [hstep] at hip
          exact absurd (List.mem_singleton.mp hip).symm heq
        | raise err vm₁ =>
          rw [hstep] at hip
          exact absurd (List.mem_singleton.mp hip).symm heq

end Run

/-- A run is decoded if it fetches no byte of a bare mnemonic that the machine has no case
for or reads an operand behind; if it fetches one of the former it is not. -/
theorem decodes_without_bare (source : PyStr) (co : CodeObject)
    (h : Compiler.init.compile source = .ok co) :
    (¬ FetchesBare (caseless ++ withOperand) source co → Decodes co) ∧
      (FetchesBare caseless source co → ¬ Decodes co) := by
  have hencodes := Compiler.compile_encodes h
  constructor
  · intro hbare fuel vm err hrun
    have haligned : Aligned co (pieces (tokenize source)) (pieces (tokenize source))
        VirtualMachine.started.ip := ⟨[], rfl, rfl, hencodes⟩
    exact loop_decodes haligned (fun ip hip op hop hat => hbare ⟨fuel, ip, hip, op, hop, hat⟩) hrun
  · rintro ⟨fuel, ip, hip, op, hop, hat⟩ hdecodes
    obtain ⟨vm, message, hloop⟩ := loop_caseless hop hip (encodes_bare hencodes hat)
    exact hdecodes fuel vm _ hloop trivial

/-- `PUSH 1` and `PRINT`: two pieces, both decoded. -/
theorem decodes_print : ∃ co, Compiler.init.compile (PyStr.lit "PUSH 1\nPRINT") = .ok co ∧
    co.coCode = [0x01, 0, 0, 0x40] ∧ Decodes co := by
  have hcompile : Compiler.init.compile (PyStr.lit "PUSH 1\nPRINT") =
      .ok ⟨[0x01, 0, 0, 0x40], [.int 1], []⟩ := by decide
  refine ⟨_, hcompile, rfl, (decodes_without_bare _ _ hcompile).1 ?_⟩
  intro hx
  obtain ⟨fuel, ip, -, op, hop, before, after, hps, -⟩ := hx
  have hpieces : pieces (tokenize (PyStr.lit "PUSH 1\nPRINT")) =
      [.operand .loadConst, .mnemonic .print] := by decide
  have hmem : Piece.mnemonic op ∈ [.operand .loadConst, .mnemonic .print] := by
    rw [← hpieces, hps]
    simp
  obtain rfl : op = .print := by simpa using hmem
  revert hop
  decide

/-- `DIV` is compiled to a byte that the machine does not know. -/
theorem div_not_decoded : ¬ ∀ (source : PyStr) (co : CodeObject),
    Compiler.init.compile source = .ok co → Decodes co := by
  intro h
  have hcompile : Compiler.init.compile (PyStr.lit "DIV") = .ok ⟨[0x13], [], []⟩ := by decide
  have hrun : ∃ vm message, VirtualMachine.init.run ⟨[0x13], [], []⟩ 1 =
      some (vm, some (.runtimeError message)) := ⟨_, _, rfl⟩
  obtain ⟨vm, message, hrun⟩ := hrun
  exact h _ _ hcompile 1 vm _ hrun trivial

end PythonPortfolio.Ouroboros
