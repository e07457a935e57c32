import PythonPortfolio.Ouroboros.CodeGen

/-!
# Compilation preserves meaning

The machine on compiled code follows the direct execution of the instructions. The
instruction pointer stands for the instructions that are left: what remains of the
code behind it is their encoding.
-/

namespace PythonPortfolio.Ouroboros

open Library Library.BigEndian

/-- The exception that reports a failure. -/
def Failure.error : Failure → VmError
  | .stackUnderflow => .popFromEmptyList
  | .undefinedName x => .nameError (PyStr.lit "Name '" ++ x ++ PyStr.lit "' is not defined")
  | .operand e => .operand e

def startLine : PyStr := PyStr.lit "\n--- VM EXECUTION START ---"

def finishLine : PyStr := PyStr.lit "--- VM EXECUTION FINISHED ---"

/-- What `print` makes of a printed value. -/
def stdoutLine (line : PyStr) : PyStr := PyStr.lit "[STDOUT] " ++ line

/-- A state of the machine that stands for a configuration. -/
structure Matches (vm : VirtualMachine) (c : Config) : Prop where
  stack : vm.stack = c.stack
  globals : ∀ x, vm.globals.get? x = c.env x
  out : vm.out = startLine :: c.printed.map stdoutLine

/-- A step of the machine that stands for an effect and leaves the pointer at `ip`. -/
inductive Follows (ip : Nat) : Step → Effect → Prop
  | next {vm : VirtualMachine} {c : Config} (h : Matches vm c) (hip : vm.ip = ip) :
      Follows ip (.next vm) (.next c)
  | leave {vm : VirtualMachine} {c : Config} (h : Matches vm c) : Follows ip (.leave vm) (.halt c)
  | raise {vm : VirtualMachine} {c : Config} (f : Failure) (h : Matches vm c) (hip : vm.ip = ip) :
      Follows ip (.raise f.error vm) (.fail f c)

variable {vm : VirtualMachine} {c : Config} {ip : Nat}

theorem Matches.push (h : Matches vm c) (val : Value) : Matches (vm.push val) (c.push val) where
  stack := by
    show val :: vm.stack = val :: c.stack
    rw [h.stack]
  globals := h.globals
  out := h.out

theorem Matches.store (h : Matches vm c) (x : PyStr) (val : Value) :
    Matches { vm with globals := vm.globals.set x val }
      { c with env := Function.update c.env x (some val) } where
  stack := h.stack
  globals y := by
    show (vm.globals.set x val).get? y = Function.update c.env x (some val) y
    rw [Dict.get?_set, Function.update_apply, h.globals y]
  out := h.out

theorem Matches.print (h : Matches vm c) (val : Value) :
    Matches { vm with out := vm.out ++ [stdoutLine val.format] }
      { c with printed := c.printed ++ [val.format] } where
  stack := h.stack
  globals := h.globals
  out := by
    show vm.out ++ [stdoutLine val.format] = _
    rw [h.out, List.map_append]
    rfl

theorem Matches.moveTo (h : Matches vm c) (ip : Nat) : Matches { vm with ip := ip } c :=
  ⟨h.stack, h.globals, h.out⟩

theorem follows_pop (h : Matches vm c) (hip : vm.ip = ip)
    {k : Value → VirtualMachine → Step} {k' : Value → Config → Effect}
    (hk : ∀ val vm c, Matches vm c → vm.ip = ip → Follows ip (k val vm) (k' val c)) :
    Follows ip (vm.pop k) (c.pop k') := by
  unfold VirtualMachine.pop Config.pop
  rw [h.stack]
  cases c.stack with
  | nil => exact .raise .stackUnderflow h hip
  | cons val stack => exact hk val _ _ ⟨rfl, h.globals, h.out⟩ hip

theorem follows_operate (h : Matches vm c) (hip : vm.ip = ip)
    (f : Value → Value → Except OperandError Value) :
    Follows ip (vm.binary f) (c.operate f) := by
  refine follows_pop h hip fun b vm c h hip => follows_pop h hip fun a vm c h hip => ?_
  cases f a b with
  | ok val => exact .next (h.push val) hip
  | error e => exact .raise (.operand e) h hip

theorem drop_eq_cons {code rest : Bytes} {ip : Nat} {b : UInt8} (h : code.drop ip = b :: rest) :
    code[ip]? = some b ∧ code.drop (ip + 1) = rest := by
  constructor
  · have := congrArg (fun l => l[0]?) h
    rwa [List.getElem?_drop, Nat.add_zero] at this
  · rw [← List.drop_drop, h]
    rfl

/-- The operand bytes behind the pointer are read back, as far as two bytes hold it. -/
theorem readArg_mod {code rest : Bytes} {arg : Nat}
    (hcode : code.drop vm.ip = toBytes 2 arg ++ rest) (k : Nat → VirtualMachine → Step) :
    vm.readArg code k = k (arg % 65536) { vm with ip := vm.ip + 2 } := by
  have hbytes : toBytes 2 arg = [UInt8.ofNat (arg / 256), UInt8.ofNat arg] := rfl
  rw [hbytes] at hcode
  obtain ⟨hhi, hbehind⟩ := drop_eq_cons hcode
  obtain ⟨hlo, _⟩ := drop_eq_cons hbehind
  have hval : (UInt8.ofNat (arg / 256)).toNat <<< 8 ||| (UInt8.ofNat arg).toNat = arg % 65536 := by
    have hlow := (UInt8.ofNat arg).toNat_lt
    rw [← Nat.shiftLeft_add_eq_or_of_lt hlow, Nat.shiftLeft_eq, UInt8.toNat_ofNat',
      UInt8.toNat_ofNat']
    omega
  unfold VirtualMachine.readArg
  rw [hhi, hlo]
  dsimp only
  rw [hval]

theorem readArg_eq {code rest : Bytes} {arg : Nat} (hcode : code.drop vm.ip = toBytes 2 arg ++ rest)
    (harg : arg < 65536) (k : Nat → VirtualMachine → Step) :
    vm.readArg code k = k arg { vm with ip := vm.ip + 2 } := by
  rw [readArg_mod hcode, Nat.mod_eq_of_lt harg]

/-! ## The instructions with an operand -/

/-- Two bytes are enough for a place below `65536`. -/
theorem getElem?_poolIndex_mod {α : Type} [DecidableEq α] {pool : List α} {a : α}
    (hmem : a ∈ pool) (hlt : poolIndex pool a < 65536) :
    pool[poolIndex pool a % 65536]? = some a := by
  rw [Nat.mod_eq_of_lt hlt]
  exact getElem?_poolIndex hmem

section Operand

variable {co : CodeObject} {arg : Nat} {rest : Bytes}

theorem execute_loadConst {val : Literal} (hcode : co.coCode.drop vm.ip = toBytes 2 arg ++ rest)
    (hval : co.coConsts[arg % 65536]? = some val) :
    vm.execute co OpCode.loadConst.byte =
      .next (({ vm with ip := vm.ip + 2 } : VirtualMachine).push val.value) := by
  unfold VirtualMachine.execute
  rw [OpCode.ofByte?_byte]
  dsimp only
  rw [readArg_mod hcode, hval]

theorem execute_loadName {name : PyStr} (hcode : co.coCode.drop vm.ip = toBytes 2 arg ++ rest)
    (hname : co.coNames[arg % 65536]? = some name) :
    vm.execute co OpCode.loadName.byte =
      match vm.globals.get? name with
      | none => .raise (.nameError (PyStr.lit "Name '" ++ name ++ PyStr.lit "' is not defined"))
          { vm with ip := vm.ip + 2 }
      | some val => .next (({ vm with ip := vm.ip + 2 } : VirtualMachine).push val) := by
  unfold VirtualMachine.execute
  rw [OpCode.ofByte?_byte]
  dsimp only
  cases hval : vm.globals.get? name with
  | none =>
    rw [readArg_mod hcode, hname]
    simp only [hval]
  | some val =>
    rw [readArg_mod hcode, hname]
    simp only [hval]

theorem execute_storeName {name : PyStr} (hcode : co.coCode.drop vm.ip = toBytes 2 arg ++ rest)
    (hname : co.coNames[arg % 65536]? = some name) :
    vm.execute co OpCode.storeName.byte =
      ({ vm with ip := vm.ip + 2 } : VirtualMachine).pop fun val vm =>
        .next { vm with globals := vm.globals.set name val } := by
  unfold VirtualMachine.execute
  rw [OpCode.ofByte?_byte]
  dsimp only
  rw [readArg_mod hcode, hname]

end Operand

/-- The number of bytes of an instruction. -/
def Instr.size : Instr → Nat
  | .push _ | .store _ | .load _ => 3
  | .label _ => 0
  | _ => 1

theorem length_encode (consts : List Literal) (names : List PyStr) (i : Instr) :
    (encode consts names (.instr i)).length = i.size := by
  cases i <;> simp [encode, Instr.size, Instr.mnemonic?]

/-- The constant and the name of an instruction are in the pools, at places that two
bytes can hold. -/
structure Pooled (consts : List Literal) (names : List PyStr) (i : Instr) : Prop where
  literal : ∀ val ∈ (Statement.instr i).literals, val ∈ consts ∧ poolIndex consts val < 65536
  name : ∀ x ∈ (Statement.instr i).names, x ∈ names ∧ poolIndex names x < 65536

/-- One instruction. -/
theorem execute_follows {co : CodeObject} {i : Instr} {rest : Bytes} (h : Matches vm c)
    (hpool : Pooled co.coConsts co.coNames i) (hlabel : ∀ l, i ≠ .label l)
    (hcode : co.coCode.drop vm.ip = encode co.coConsts co.coNames (.instr i) ++ rest) :
    ∃ op, co.coCode[vm.ip]? = some op ∧
      Follows (vm.ip + i.size) (({ vm with ip := vm.ip + 1 } : VirtualMachine).execute co op)
        (c.perform i) := by
  have hnext := h.moveTo (vm.ip + 1)
  cases i with
  | push val =>
    obtain ⟨hmem, hlt⟩ := hpool.literal val List.mem_cons_self
    obtain ⟨hop, hrest⟩ := drop_eq_cons hcode
    refine ⟨_, hop, ?_⟩
    rw [execute_loadConst hrest (getElem?_poolIndex_mod hmem hlt)]
    exact .next ((h.moveTo _).push _) rfl
  | store x =>
    obtain ⟨hmem, hlt⟩ := hpool.name x List.mem_cons_self
    obtain ⟨hop, hrest⟩ := drop_eq_cons hcode
    refine ⟨_, hop, ?_⟩
    rw [execute_storeName hrest (getElem?_poolIndex_mod hmem hlt), Config.perform]
    exact follows_pop (h.moveTo _) rfl fun val vm c h hip => .next (h.store x val) hip
  | load x =>
    obtain ⟨hmem, hlt⟩ := hpool.name x List.mem_cons_self
    obtain ⟨hop, hrest⟩ := drop_eq_cons hcode
    refine ⟨_, hop, ?_⟩
    rw [execute_loadName hrest (getElem?_poolIndex_mod hmem hlt)]
    dsimp only
    rw [h.globals x, Config.perform]
    cases c.env x with
    | none => exact .raise (.undefinedName x) (h.moveTo _) rfl
    | some val => exact .next ((h.moveTo _).push val) rfl
  | add | sub | mul | eq =>
    refine ⟨_, (drop_eq_cons hcode).1, ?_⟩
    unfold VirtualMachine.execute
    rw [OpCode.ofByte?_byte]
    exact follows_operate hnext rfl _
  | print =>
    refine ⟨_, (drop_eq_cons hcode).1, ?_⟩
    unfold VirtualMachine.execute
    rw [OpCode.ofByte?_byte]
    dsimp only
    rw [Config.perform]
    exact follows_pop hnext rfl fun val vm c h hip => .next (h.print val) hip
  | halt =>
    refine ⟨_, (drop_eq_cons hcode).1, ?_⟩
    unfold VirtualMachine.execute
    rw [OpCode.ofByte?_byte]
    exact .leave hnext
  | label l => exact absurd rfl (hlabel l)

def codeSize (instrs : List Instr) : Nat := (instrs.map Instr.size).sum

/-- The end of a run of the machine from `ip` on that stands for the end of the direct
execution: at a failure the pointer is right behind the instruction that failed. -/
inductive Ends (ip : Nat) (instrs : List Instr) :
    VirtualMachine × Option VmError → Config × Option (Nat × Failure) → Prop
  | finished {vm : VirtualMachine} {c : Config} (h : Matches vm c) :
      Ends ip instrs (vm.finish, none) (c, none)
  | failed {vm : VirtualMachine} {c : Config} {k : Nat} {f : Failure} (h : Matches vm c)
      (hip : vm.ip = ip + codeSize (instrs.take (k + 1))) :
      Ends ip instrs (vm, some f.error) (c, some (k, f))

/-- An instruction before adds its size to the place of a failure. -/
theorem Ends.cons {i : Instr} {rest : List Instr} {r : VirtualMachine × Option VmError}
    {d : Config × Option (Nat × Failure)} (h : Ends (ip + i.size) rest r d) :
    Ends ip (i :: rest) r (d.1, d.2.map fun p => (p.1 + 1, p.2)) := by
  cases h with
  | finished h => exact .finished h
  | failed h hip =>
    refine .failed h ?_
    rw [hip, List.take_succ_cons, codeSize, codeSize, List.map_cons, List.sum_cons, Nat.add_assoc]

theorem performAll_next {c c' : Config} {i : Instr} (h : c.perform i = .next c')
    (rest : List Instr) :
    c.performAll (i :: rest) =
      ((c'.performAll rest).1, (c'.performAll rest).2.map fun p => (p.1 + 1, p.2)) := by
  rw [Config.performAll, h]
  dsimp only
  split <;> simp_all

/-- The loop on the code that is left. -/
theorem loop_ends {co : CodeObject} {instrs : List Instr}
    (hpool : ∀ i ∈ instrs, Pooled co.coConsts co.coNames i) {fuel : Nat}
    (hfuel : instrs.length < fuel) (h : Matches vm c)
    (hcode : co.coCode.drop vm.ip =
      instrs.flatMap fun i => encode co.coConsts co.coNames (.instr i)) :
    ∃ r, VirtualMachine.loop co fuel vm = some r ∧ Ends vm.ip instrs r (c.performAll instrs) := by
  induction instrs generalizing vm c fuel with
  | nil =>
    obtain ⟨fuel, rfl⟩ := Nat.exists_eq_succ_of_ne_zero (Nat.ne_of_gt hfuel)
    have hend : co.coCode[vm.ip]? = none := by
      rw [List.getElem?_eq_none_iff, ← List.drop_eq_nil_iff, hcode]
      rfl
    rw [VirtualMachine.loop, hend]
    exact ⟨_, rfl, .finished h⟩
  | cons i rest ih =>
    rw [List.flatMap_cons] at hcode
    have hrest := fun j hj => hpool j (List.mem_cons_of_mem i hj)
    by_cases hlabel : ∃ l, i = .label l
    · -- a label takes no code and no step
      obtain ⟨l, rfl⟩ := hlabel
      obtain ⟨r, hr, hends⟩ := ih hrest (Nat.lt_of_succ_lt hfuel) h hcode
      refine ⟨r, hr, ?_⟩
      rw [performAll_next rfl]
      exact Ends.cons (i := .label l) hends
    · obtain ⟨fuel, rfl⟩ := Nat.exists_eq_succ_of_ne_zero (Nat.ne_of_gt (Nat.zero_lt_of_lt hfuel))
      obtain ⟨op, hop, hstep⟩ := execute_follows h (hpool i List.mem_cons_self)
        (fun l hl => hlabel ⟨l, hl⟩) hcode
      have hbehind : co.coCode.drop (vm.ip + i.size) =
          rest.flatMap fun i => encode co.coConsts co.coNames (.instr i) := by
        rw [← List.drop_drop, hcode, ← length_encode co.coConsts co.coNames i, List.drop_left]
      rw [VirtualMachine.loop, hop]
      dsimp only
      generalize VirtualMachine.execute _ co op = step at hstep
      generalize hperform : c.perform i = effect at hstep
      cases hstep with
      | @next vm' c' h' hip =>
        rw [← hip] at hbehind
        obtain ⟨r, hr, hends⟩ := ih hrest (Nat.lt_of_succ_lt_succ hfuel) h' hbehind
        refine ⟨r, hr, ?_⟩
        rw [performAll_next hperform]
        rw [hip] at hends
        exact hends.cons
      | leave h' =>
        refine ⟨_, rfl, ?_⟩
        rw [Config.performAll, hperform]
        exact .finished h'
      | raise f h' hip =>
        refine ⟨_, rfl, ?_⟩
        rw [Config.performAll, hperform]
        refine .failed h' ?_
        rw [hip]
        rfl

/-- The pools of a program hold what its instructions name. -/
theorem pooled_of_mem {program : List Instr}
    (hconsts : ((program.map .instr).flatMap Statement.literals).dedup.length ≤ 65536)
    (hnames : ((program.map .instr).flatMap Statement.names).dedup.length ≤ 65536) {i : Instr}
    (hi : i ∈ program) :
    Pooled (constPool (program.map .instr)) (namePool (program.map .instr)) i where
  literal val hval := by
    have hmem : val ∈ (program.map Statement.instr).flatMap Statement.literals :=
      List.mem_flatMap.mpr ⟨_, List.mem_map_of_mem hi, hval⟩
    have hlt := poolIndex_internAll_lt hmem
    exact ⟨mem_internAll.mpr (Or.inr hmem), hlt.trans_le hconsts⟩
  name x hx := by
    have hmem : x ∈ (program.map Statement.instr).flatMap Statement.names :=
      List.mem_flatMap.mpr ⟨_, List.mem_map_of_mem hi, hx⟩
    have hlt := poolIndex_internAll_lt hmem
    exact ⟨mem_internAll.mpr (Or.inr hmem), hlt.trans_le hnames⟩

/-- Compiled code does what the instructions say: the run ends with the same printed
lines, stack and values of the names, and with the same failure at the same
instruction, if any. -/
theorem data_path_refines {source : PyStr} {program : List Instr}
    (h : Renders source (program.map .instr))
    (hconsts : ((program.map .instr).flatMap Statement.literals).dedup.length ≤ 65536)
    (hnames : ((program.map .instr).flatMap Statement.names).dedup.length ≤ 65536) :
    ∃ co, Compiler.init.compile source = .ok co ∧ ∀ fuel, program.length < fuel →
      ∃ vm e, VirtualMachine.init.run co fuel = some (vm, e) ∧
        vm.stack = (Config.init.performAll program).1.stack ∧
        (∀ x, vm.globals.get? x = (Config.init.performAll program).1.env x) ∧
        vm.out = startLine :: (Config.init.performAll program).1.printed.map stdoutLine ++
          (if e = none then [finishLine] else []) ∧
        e = (Config.init.performAll program).2.map (fun p => p.2.error) ∧
        ∀ k f, (Config.init.performAll program).2 = some (k, f) →
          vm.ip = codeSize (program.take (k + 1)) := by
  have hharmless : ∀ s ∈ program.map Statement.instr, s.Harmless := by
    intro s hs
    obtain ⟨i, _, rfl⟩ := List.mem_map.mp hs
    trivial
  refine ⟨_, compile_renders h hharmless, fun fuel hfuel => ?_⟩
  have hstart : Matches (({ VirtualMachine.init with ip := 0 } : VirtualMachine).println startLine)
      Config.init := ⟨rfl, fun _ => rfl, rfl⟩
  have hcode : (compiledCode (program.map .instr)).coCode.drop 0 = program.flatMap fun i =>
      encode (constPool (program.map .instr)) (namePool (program.map .instr)) (.instr i) :=
    List.flatMap_map _ _ _
  obtain ⟨⟨vm, e⟩, hrun, hends⟩ := loop_ends (fun i hi => pooled_of_mem hconsts hnames hi) hfuel
    hstart hcode
  refine ⟨vm, e, hrun, ?_⟩
  generalize Config.init.performAll program = d at hends
  cases hends with
  | finished hm =>
    refine ⟨hm.stack, hm.globals, ?_, rfl, nofun⟩
    rw [if_pos rfl, ← hm.out]
    rfl
  | failed hm hip =>
    refine ⟨hm.stack, hm.globals, ?_, rfl, fun k' f' hk => ?_⟩
    · rw [hm.out, if_neg (Option.some_ne_none _), List.append_nil]
    · obtain ⟨rfl, rfl⟩ := Prod.mk.inj (Option.some.inj hk)
      rw [hip]
      exact Nat.zero_add _

/-- A sum, and an addition that has nothing left to add. -/
def sampleSource : PyStr := PyStr.lit "PUSH 10\n  push 20 # more\nADD\nadd"

def sampleProgram : List Instr := [.push (.int 10), .push (.int 20), .add, .add]

theorem sample_renders : Renders sampleSource (sampleProgram.map .instr) := by
  have hlines : PyStr.splitlines sampleSource =
      [PyStr.lit "PUSH 10", PyStr.lit "  push 20 # more", PyStr.lit "ADD", PyStr.lit "add"] := by
    decide
  have hspace : PyChar.isSpace (.scalar ' ') = true := by decide
  refine ⟨[some (.instr (.push (.int 10))), some (.instr (.push (.int 20))), some (.instr .add),
    some (.instr .add)], ?_, rfl⟩
  rw [hlines]
  refine .cons ?_ (.cons ?_ (.cons ?_ (.cons ?_ .nil)))
  · exact ⟨[PyStr.lit "PUSH", PyStr.lit "10"], PyStr.lit "PUSH 10", [], by decide,
      .cons (w := PyStr.lit "PUSH") .nil (by decide) hspace
        (.last (w := PyStr.lit "10") .nil (by decide)),
      trivial, .push (by decide) (.int (by decide) (by decide))⟩
  · exact ⟨[PyStr.lit "push", PyStr.lit "20"], PyStr.lit "  push 20 ", PyStr.lit "# more",
      by decide, @PyStr.Spaced.cons (PyStr.lit "  ") (PyStr.lit "push") _ _ _ (by decide)
        (by decide) hspace (.cons (w := PyStr.lit "20") .nil (by decide) hspace (.blank .nil)),
      rfl, .push (by decide) (.int (by decide) (by decide))⟩
  · exact ⟨[PyStr.lit "ADD"], PyStr.lit "ADD", [], by decide, .last .nil (by decide), trivial,
      .plain rfl (by decide)⟩
  · exact ⟨[PyStr.lit "add"], PyStr.lit "add", [], by decide, .last .nil (by decide), trivial,
      .plain rfl (by decide)⟩

/-- The second addition of the sample finds no second operand. -/
theorem data_path_refines_sample :
    ∃ co, Compiler.init.compile sampleSource = .ok co ∧ ∃ vm,
      VirtualMachine.init.run co 5 = some (vm, some .popFromEmptyList) ∧ vm.stack = [] ∧
        vm.out = [startLine] ∧ vm.ip = 8 := by
  obtain ⟨co, hco, hrun⟩ := data_path_refines sample_renders (by decide) (by decide)
  obtain ⟨vm, e, hvm, hstack, _, hout, he, hip⟩ := hrun 5 (by decide)
  obtain rfl : e = some .popFromEmptyList := he
  exact ⟨co, hco, vm, hvm, hstack, hout, hip 3 .stackUnderflow rfl⟩

end PythonPortfolio.Ouroboros
