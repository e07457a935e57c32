import PythonPortfolio.Library.Lockstep
import PythonPortfolio.Ouroboros.Jumps

/-!
# Control flow

What a program with labels and jumps does, and that the machine does it wherever the code
lays the program out: each statement in its bytes, each jump with the offset of its label.
`_emit_arg` with its placeholder and `_fix_jumps` make such code of any program all of
whose labels are defined; that the walk over the tokens does not put the jumps aside is
another matter.
-/

namespace PythonPortfolio.Ouroboros

open Library Library.BigEndian

/-! ## Direct execution -/

/-- The place of the last definition of a label. -/
def place? (l : PyStr) : List Statement → Option Nat
  | [] => none
  | s :: rest =>
    match place? l rest with
    | some k => some (k + 1)
    | none => if s.label? = some l then some 0 else none

/-- Where a jump goes; a label that is not defined stands for the end. -/
def goto (program : List Statement) (target : PyStr) : Nat :=
  (place? target program).getD program.length

/-- One statement at the place `k`: the place and configuration after it, or the end of the
execution with a failure and its place. -/
def flowNext (program : List Statement) (p : Nat × Config) :
    (Nat × Config) ⊕ (Config × Option (Nat × Failure)) :=
  match program[p.1]? with
  | none => .inr (p.2, none)
  | some (.instr i) =>
    match p.2.perform i with
    | .next c => .inl (p.1 + 1, c)
    | .halt c => .inr (c, none)
    | .fail f c => .inr (c, some (p.1, f))
  | some (.jump conditional target) =>
    if conditional then
      match p.2.stack with
      | [] => .inr (p.2, some (p.1, .stackUnderflow))
      | val :: stack =>
        .inl (if val.truthy then p.1 + 1 else goto program target, { p.2 with stack := stack })
    else .inl (goto program target, p.2)

/-! ## The loop of the machine -/

/-- What the loop does with the end of an instruction. -/
def Step.round : Step → VirtualMachine ⊕ (VirtualMachine × Option VmError)
  | .next vm => .inl vm
  | .leave vm => .inr (vm.finish, none)
  | .raise e vm => .inr (vm, some e)

namespace VirtualMachine

/-- One round of the loop of `run`. -/
def next (co : CodeObject) (vm : VirtualMachine) :
    VirtualMachine ⊕ (VirtualMachine × Option VmError) :=
  match co.coCode[vm.ip]? with
  | none => .inr (vm.finish, none)
  | some op => (({ vm with ip := vm.ip + 1 } : VirtualMachine).execute co op).round

theorem loop_eq (co : CodeObject) (fuel : Nat) (vm : VirtualMachine) :
    loop co fuel vm = iterate (next co) fuel vm := by
  induction fuel generalizing vm with
  | zero => rfl
  | succ fuel ih =>
    rw [loop, iterate_succ, next]
    cases co.coCode[vm.ip]? with
    | none => rfl
    | some op =>
      dsimp only
      cases ({ vm with ip := vm.ip + 1 } : VirtualMachine).execute co op with
      | next vm => exact ih vm
      | leave vm => rfl
      | raise e vm => rfl

end VirtualMachine

/-! ## Code that lays a program out -/

/-- The bytes of a statement: a jump has the offset of its label as its operand. -/
def layout (program : List Statement) (consts : List Literal) (names : List PyStr) :
    Statement → Bytes
  | .instr i => encode consts names (.instr i)
  | .jump conditional target =>
    (jumpOp conditional).byte :: toBytes 2 (offset program (goto program target))

structure Laid (program : List Statement) (co : CodeObject) : Prop where
  code : co.coCode = program.flatMap (layout program co.coConsts co.coNames)
  pooled : ∀ i, .instr i ∈ program → Pooled co.coConsts co.coNames i
  short : programSize program < 65536

variable {program : List Statement} {co : CodeObject} {vm : VirtualMachine} {c : Config}

theorem length_layout (consts : List Literal) (names : List PyStr) (s : Statement) :
    (layout program consts names s).length = s.size := by
  cases s with
  | instr i => exact length_encode consts names i
  | jump conditional target => rfl

theorem offset_succ {k : Nat} {s : Statement} (hk : program[k]? = some s) :
    offset program (k + 1) = offset program k + s.size := by
  obtain ⟨hlt, rfl⟩ := List.getElem?_eq_some_iff.mp hk
  rw [offset, programSize, List.take_succ_eq_append_getElem hlt, List.map_append, List.sum_append]
  rfl

theorem offset_le (program : List Statement) (k : Nat) :
    offset program k ≤ programSize program := by
  unfold offset programSize
  exact List.Sublist.sum_le_sum ((List.take_sublist k program).map _) (fun _ _ => Nat.zero_le _)

/-- Behind the offset of a place stands what the rest of the program lays out. -/
theorem drop_flatMap_offset (f : Statement → Bytes) (hf : ∀ s, (f s).length = s.size) (k : Nat) :
    (program.flatMap f).drop (offset program k) = (program.drop k).flatMap f := by
  have hlength : offset program k = ((program.take k).flatMap f).length := by
    rw [List.length_flatMap, offset, programSize]
    exact congrArg List.sum (List.map_congr_left fun s _ => (hf s).symm)
  conv_lhs => rw [← List.take_append_drop k program, List.flatMap_append]
  rw [show offset (program.take k ++ program.drop k) k = offset program k by
    rw [List.take_append_drop], hlength, List.drop_left]

/-! ## The machine follows -/

/-- The machine stands at the place, with the stack, the names and the output. -/
def Stands (program : List Statement) (p : Nat × Config) (vm : VirtualMachine) : Prop :=
  Matches vm p.2 ∧ vm.ip = offset program p.1

/-- The end of a run that stands for the end of the direct execution: at a failure the
pointer is right behind the statement that failed. -/
inductive FlowEnds (program : List Statement) :
    Config × Option (Nat × Failure) → VirtualMachine × Option VmError → Prop
  | finished {vm : VirtualMachine} {c : Config} (h : Matches vm c) :
      FlowEnds program (c, none) (vm.finish, none)
  | failed {vm : VirtualMachine} {c : Config} {k : Nat} {f : Failure} (h : Matches vm c)
      (hip : vm.ip = offset program (k + 1)) :
      FlowEnds program (c, some (k, f)) (vm, some f.error)

theorem Laid.drop (h : Laid program co) {k : Nat} {s : Statement} (hk : program[k]? = some s) :
    co.coCode.drop (offset program k) = layout program co.coConsts co.coNames s ++
      (program.drop (k + 1)).flatMap (layout program co.coConsts co.coNames) := by
  obtain ⟨hlt, rfl⟩ := List.getElem?_eq_some_iff.mp hk
  rw [h.code, drop_flatMap_offset _ (length_layout _ _), List.drop_eq_getElem_cons hlt,
    List.flatMap_cons]

theorem execute_jmpIfFalse {arg : Nat} {rest : Bytes}
    (hcode : co.coCode.drop vm.ip = toBytes 2 arg ++ rest) (harg : arg < 65536) :
    vm.execute co OpCode.jmpIfFalse.byte =
      ({ vm with ip := vm.ip + 2 } : VirtualMachine).pop fun condition vm =>
        .next (if condition.truthy then vm else { vm with ip := arg }) := by
  unfold VirtualMachine.execute
  rw [OpCode.ofByte?_byte]
  dsimp only
  rw [readArg_eq hcode harg]

/-- A round of the loop stands for a step of the direct execution; a label takes none. -/
def Keeps (program : List Statement) (co : CodeObject) (p : Nat × Config) (vm : VirtualMachine) :
    Prop :=
  (∃ p', flowNext program p = .inl p' ∧ Stands program p' vm ∧
    program.length - p'.1 < program.length - p.1) ∨
  (∃ p' vm', flowNext program p = .inl p' ∧ vm.next co = .inl vm' ∧ Stands program p' vm') ∨
  ∃ r d, flowNext program p = .inr r ∧ vm.next co = .inr d ∧ FlowEnds program r d

theorem keeps_end (h : Laid program co) {k : Nat} (hp : Stands program (k, c) vm)
    (hk : program[k]? = none) : Keeps program co (k, c) vm := by
  have hend : co.coCode[vm.ip]? = none := by
    have hdrop : co.coCode.drop vm.ip = [] := by
      rw [hp.2, h.code, drop_flatMap_offset _ (length_layout _ _),
        List.drop_eq_nil_of_le (List.getElem?_eq_none_iff.mp hk), List.flatMap_nil]
    exact List.getElem?_eq_none_iff.mpr (List.drop_eq_nil_iff.mp hdrop)
  refine Or.inr (Or.inr ⟨(c, none), (vm.finish, none), ?_, ?_, .finished hp.1⟩)
  · simp only [flowNext, hk]
  · rw [VirtualMachine.next, hend]

theorem keeps_instr (h : Laid program co) {k : Nat} (hp : Stands program (k, c) vm) {i : Instr}
    (hk : program[k]? = some (.instr i)) : Keeps program co (k, c) vm := by
  have hlt : k < program.length := (List.getElem?_eq_some_iff.mp hk).1
  have hflow : flowNext program (k, c) =
      match c.perform i with
      | .next c => .inl (k + 1, c)
      | .halt c => .inr (c, none)
      | .fail f c => .inr (c, some (k, f)) := by
    simp only [flowNext, hk]
  have hafter : vm.ip + i.size = offset program (k + 1) := by
    rw [offset_succ hk, hp.2]
    rfl
  by_cases hlabel : ∃ l, i = .label l
  · obtain ⟨l, rfl⟩ := hlabel
    refine Or.inl ⟨(k + 1, c), hflow, ⟨hp.1, hafter⟩, ?_⟩
    dsimp only
    omega
  · have hdrop := h.drop hk
    rw [← hp.2] at hdrop
    obtain ⟨op, hop, hstep⟩ := execute_follows hp.1 (h.pooled i (List.mem_of_getElem? hk))
      (fun l hl => hlabel ⟨l, hl⟩) hdrop
    rw [hafter] at hstep
    have hnext : vm.next co =
        (({ vm with ip := vm.ip + 1 } : VirtualMachine).execute co op).round := by
      rw [VirtualMachine.next, hop]
    generalize VirtualMachine.execute _ co op = step at hstep hnext
    generalize c.perform i = effect at hstep hflow
    cases hstep with
    | next h' hip => exact Or.inr (Or.inl ⟨_, _, hflow, hnext, h', hip⟩)
    | leave h' => exact Or.inr (Or.inr ⟨_, _, hflow, hnext, .finished h'⟩)
    | raise f h' hip => exact Or.inr (Or.inr ⟨_, _, hflow, hnext, .failed h' hip⟩)

theorem keeps_jump (h : Laid program co) {k : Nat} (hp : Stands program (k, c) vm)
    {conditional : Bool} {target : PyStr} (hk : program[k]? = some (.jump conditional target)) :
    Keeps program co (k, c) vm := by
  obtain ⟨hmatches, hip⟩ := hp
  have hafter : vm.ip + 3 = offset program (k + 1) := by
    rw [offset_succ hk, hip]
    rfl
  have hthere : offset program (goto program target) < 65536 :=
    (offset_le program _).trans_lt h.short
  have hdrop := h.drop hk
  rw [← hip] at hdrop
  obtain ⟨hop, hrest⟩ := drop_eq_cons hdrop
  cases conditional with
  | false =>
    refine Or.inr (Or.inl ⟨(goto program target, c),
      { vm with ip := offset program (goto program target) }, ?_, ?_, hmatches.moveTo _, rfl⟩)
    · simp only [flowNext, hk, Bool.false_eq_true, if_false]
    · rw [VirtualMachine.next, hop]
      have hlands := lands_of_operand (h.drop hk) hthere { vm with ip := vm.ip + 1 }
        (congrArg (· + 1) hip)
      exact congrArg Step.round hlands
  | true =>
    have hnext : vm.next co =
        (({ vm with ip := vm.ip + 3 } : VirtualMachine).pop fun condition vm =>
          .next (if condition.truthy then vm
            else { vm with ip := offset program (goto program target) })).round := by
      rw [VirtualMachine.next, hop]
      exact congrArg Step.round (execute_jmpIfFalse hrest hthere)
    rw [VirtualMachine.pop] at hnext
    dsimp only at hnext
    rw [hmatches.stack] at hnext
    cases hstack : c.stack with
    | nil =>
      rw [hstack] at hnext
      refine Or.inr (Or.inr ⟨(c, some (k, .stackUnderflow)), _, ?_, hnext,
        .failed ⟨hstack.symm, hmatches.globals, hmatches.out⟩ hafter⟩)
      simp only [flowNext, hk, if_true, hstack]
    | cons val stack =>
      rw [hstack] at hnext
      refine Or.inr (Or.inl ⟨(if val.truthy then k + 1 else goto program target,
        { c with stack := stack }), _, ?_, hnext, ?_⟩)
      · simp only [flowNext, hk, if_true, hstack]
      · cases val.truthy with
        | true => exact ⟨⟨rfl, hmatches.globals, hmatches.out⟩, hafter⟩
        | false => exact ⟨⟨rfl, hmatches.globals, hmatches.out⟩, rfl⟩

theorem Laid.lockstep (h : Laid program co) : Lockstep (flowNext program) (VirtualMachine.next co)
    (Stands program) (FlowEnds program) fun p => program.length - p.1 where
  step p vm hp := by
    obtain ⟨k, c⟩ := p
    cases hk : program[k]? with
    | none => exact keeps_end h hp hk
    | some s =>
      cases s with
      | instr i => exact keeps_instr h hp hk
      | jump conditional target => exact keeps_jump h hp hk

/-- The machine at the head of the loop. -/
def VirtualMachine.launched : VirtualMachine := VirtualMachine.init.println startLine

theorem VirtualMachine.run_eq (co : CodeObject) (fuel : Nat) :
    VirtualMachine.init.run co fuel = iterate (VirtualMachine.next co) fuel .launched :=
  VirtualMachine.loop_eq co fuel _

theorem stands_launched : Stands program (0, .init) .launched := ⟨⟨rfl, fun _ => rfl, rfl⟩, rfl⟩

/-- The machine on code that lays a program out stops exactly if the direct execution does,
and ends as it does: the same stack, values of the names and printed lines, and the same
failure at the same statement, if any. -/
theorem laid_out_runs (h : Laid program co) :
    (∀ fuel d, VirtualMachine.init.run co fuel = some d →
      ∃ r, Stops (flowNext program) (0, .init) r ∧ FlowEnds program r d) ∧
    ∀ r, Stops (flowNext program) (0, .init) r →
      ∃ fuel d, VirtualMachine.init.run co fuel = some d ∧ FlowEnds program r d := by
  constructor
  · intro fuel d hd
    exact h.lockstep.backward stands_launched ⟨fuel, (VirtualMachine.run_eq co fuel).symm.trans hd⟩
  · intro r hr
    obtain ⟨d, ⟨fuel, hd⟩, hends⟩ := h.lockstep.forward stands_launched hr
    exact ⟨fuel, d, (VirtualMachine.run_eq co fuel).trans hd, hends⟩

/-! ## Backpatching -/

namespace Compiler

/-- A statement, with a jump put aside. -/
def assembleFlow (c : Compiler) : Statement → Compiler
  | .jump conditional target => c.emitJump (jumpOp conditional) target
  | s => c.assemble s

end Compiler

/-- The bytes of a statement before its jumps are patched. -/
def draft (consts : List Literal) (names : List PyStr) : Statement → Bytes
  | .instr i => encode consts names (.instr i)
  | .jump conditional _ => (jumpOp conditional).byte :: toBytes 2 0xFFFF

/-- The operands of the jumps of a program whose code begins at `n`. -/
def jumpsFrom (n : Nat) : List Statement → List (Nat × PyStr)
  | [] => []
  | .jump _ target :: rest => (n + 1, target) :: jumpsFrom (n + 3) rest
  | .instr i :: rest => jumpsFrom (n + i.size) rest

theorem length_draft (consts : List Literal) (names : List PyStr) (s : Statement) :
    (draft consts names s).length = s.size := by
  cases s with
  | instr i => exact length_encode consts names i
  | jump conditional target => rfl

theorem patch_append (front rest : Bytes) (a b : UInt8) (addr : Nat) :
    Compiler.patch (front ++ a :: b :: rest) front.length addr =
      front ++ (toBytes 2 addr ++ rest) := by
  rw [← Compiler.operand_bytes, Compiler.patch]
  simp

/-- Patching goes through the jumps in order: what is before them is done. -/
theorem fixJumps_eq (consts : List Literal) (names : List PyStr) (labels : Dict PyStr Nat)
    (f : PyStr → Nat) (rest : List Statement)
    (hlabels : ∀ conditional target, .jump conditional target ∈ rest →
      labels.get? target = some (f target)) (done : Bytes) :
    Compiler.fixJumps labels (done ++ rest.flatMap (draft consts names))
      (jumpsFrom done.length rest) =
        .ok (done ++ rest.flatMap fun s => match s with
          | .instr i => encode consts names (.instr i)
          | .jump conditional target => (jumpOp conditional).byte :: toBytes 2 (f target)) := by
  induction rest generalizing done with
  | nil => rfl
  | cons s rest ih =>
    have hrest := fun conditional target hmem =>
      hlabels conditional target (List.mem_cons_of_mem s hmem)
    cases s with
    | instr i =>
      have h := ih hrest (done ++ encode consts names (.instr i))
      rw [List.length_append, length_encode, List.append_assoc, List.append_assoc] at h
      exact h
    | jump conditional target =>
      have haddr := hlabels conditional target List.mem_cons_self
      have h := ih hrest (done ++ (jumpOp conditional).byte :: toBytes 2 (f target))
      rw [List.length_append, List.length_cons, length_toBytes, List.append_assoc,
        List.append_assoc] at h
      have hplaceholder : toBytes 2 0xFFFF = [0xFF, 0xFF] := by decide
      have hpatch := patch_append (done ++ [(jumpOp conditional).byte])
        (rest.flatMap (draft consts names)) 0xFF 0xFF (f target)
      rw [List.length_append, List.length_singleton] at hpatch
      rw [jumpsFrom, Compiler.fixJumps, haddr]
      dsimp only
      rw [List.flatMap_cons, List.flatMap_cons, draft, hplaceholder]
      simp only [List.append_assoc, List.cons_append, List.nil_append] at hpatch h ⊢
      rw [hpatch]
      exact h

theorem fixJumps_undefined (labels : Dict PyStr Nat) {rest : List Statement} {conditional : Bool}
    {target : PyStr} (hmem : .jump conditional target ∈ rest) (hnone : labels.get? target = none)
    (code : Bytes) (n : Nat) :
    ∃ conditional' target', .jump conditional' target' ∈ rest ∧ labels.get? target' = none ∧
      Compiler.fixJumps labels code (jumpsFrom n rest) =
        .error (.valueError (PyStr.lit "Undefined label: " ++ target')) := by
  induction rest generalizing code n with
  | nil => cases hmem
  | cons s rest ih =>
    cases s with
    | instr i =>
      have hmem' : .jump conditional target ∈ rest := by simpa using hmem
      obtain ⟨conditional', target', hmem', hnone', hfix⟩ := ih hmem' code (n + i.size)
      exact ⟨conditional', target', List.mem_cons_of_mem _ hmem', hnone', hfix⟩
    | jump conditional₁ target₁ =>
      rw [jumpsFrom, Compiler.fixJumps]
      cases haddr : labels.get? target₁ with
      | none => exact ⟨conditional₁, target₁, List.mem_cons_self, haddr, rfl⟩
      | some addr =>
        have hmem' : .jump conditional target ∈ rest := by
          rcases List.mem_cons.mp hmem with heq | hmem
          · cases heq
            rw [hnone] at haddr
            cases haddr
          · exact hmem
        obtain ⟨conditional', target', hmem', hnone', hfix⟩ :=
          ih hmem' (Compiler.patch code (n + 1) addr) (n + 3)
        exact ⟨conditional', target', List.mem_cons_of_mem _ hmem', hnone', hfix⟩

/-! ## What the emission leaves -/

theorem place?_eq_none {l : PyStr} {program : List Statement} :
    place? l program = none ↔ l ∉ labels program := by
  induction program with
  | nil => simp [place?, labels]
  | cons s rest ih =>
    rw [place?]
    have hlabels : labels (s :: rest) = s.label?.toList ++ labels rest := by
      cases hs : s.label? with
      | none => rw [labels, List.filterMap_cons_none hs]; rfl
      | some l' => rw [labels, List.filterMap_cons_some hs]; rfl
    rw [hlabels]
    cases hplace : place? l rest with
    | some k =>
      have hmem : l ∈ labels rest := by
        by_contra hno
        rw [ih.mpr hno] at hplace
        cases hplace
      simp [hmem]
    | none =>
      have hno := ih.mp hplace
      by_cases hs : s.label? = some l
      · simp [hs]
      · cases hs' : s.label? with
        | none => simp [hno]
        | some l' =>
          have hne : l ≠ l' := fun heq => hs (by rw [hs', heq])
          simp [hno, hne, Ne.symm hne]

namespace Compiler

theorem emitJump_eq (c : Compiler) (op : OpCode) (target : PyStr) :
    c.emitJump op target =
      { c with
        code := c.code ++ op.byte :: toBytes 2 0xFFFF
        jumpsToFix := c.jumpsToFix ++ [(c.code.length + 1, target)] } := by
  rw [emitJump, emitArg_eq]
  simp [emit]

theorem assembleFlow_consts (c : Compiler) (s : Statement) :
    (c.assembleFlow s).consts = internAll c.consts s.literals := by
  cases s with
  | instr i => exact assemble_consts c (.instr i)
  | jump conditional target =>
    rw [assembleFlow, emitJump_eq]
    rfl

theorem assembleFlow_names (c : Compiler) (s : Statement) :
    (c.assembleFlow s).names = internAll c.names s.names := by
  cases s with
  | instr i => exact assemble_names c (.instr i)
  | jump conditional target =>
    rw [assembleFlow, emitJump_eq]
    rfl

theorem assembleFlow_code (c : Compiler) (s : Statement) {consts : List Literal}
    {names : List PyStr} (hconsts : (c.assembleFlow s).consts <+: consts)
    (hnames : (c.assembleFlow s).names <+: names) :
    (c.assembleFlow s).code = c.code ++ draft consts names s := by
  cases s with
  | instr i => exact assemble_code c (.instr i) hconsts hnames
  | jump conditional target =>
    rw [assembleFlow, emitJump_eq]
    rfl

theorem assembleFlow_jumpsToFix (c : Compiler) (s : Statement) :
    (c.assembleFlow s).jumpsToFix = c.jumpsToFix ++ jumpsFrom c.code.length [s] := by
  cases s with
  | instr i =>
    rw [jumpsFrom, jumpsFrom, List.append_nil]
    exact assemble_jumpsToFix c (.instr i)
  | jump conditional target =>
    rw [assembleFlow, emitJump_eq]
    rfl

theorem assembleFlow_labels (c : Compiler) (s : Statement) (l : PyStr) :
    (c.assembleFlow s).labels.get? l =
      if s.label? = some l then some c.code.length else c.labels.get? l := by
  cases s with
  | jump conditional target =>
    rw [assembleFlow, emitJump_eq]
    exact (if_neg (by nofun)).symm
  | instr i =>
    cases i with
    | label l' =>
      change (c.labels.set l' c.code.length).get? l = _
      rw [Dict.get?_set]
      by_cases hl : l = l'
      · rw [if_pos hl, if_pos (by rw [hl]; rfl)]
      · have hne : (Statement.instr (.label l')).label? ≠ some l :=
          fun heq => hl (Option.some.inj heq).symm
        rw [if_neg hl, if_neg hne]
    | push val =>
      change (c.emitConst val).labels.get? l = _
      rw [emitConst_eq]
      rfl
    | store x | load x =>
      change (c.emitName _ x).labels.get? l = _
      rw [emitName_eq]
      rfl
    | add | sub | mul | eq | print | halt => rfl

theorem foldl_flow_consts (program : List Statement) (c : Compiler) :
    (program.foldl assembleFlow c).consts =
      internAll c.consts (program.flatMap Statement.literals) := by
  induction program generalizing c with
  | nil => rfl
  | cons s program ih =>
    rw [List.foldl_cons, ih, assembleFlow_consts, List.flatMap_cons, internAll_append]

theorem foldl_flow_names (program : List Statement) (c : Compiler) :
    (program.foldl assembleFlow c).names = internAll c.names (program.flatMap Statement.names) := by
  induction program generalizing c with
  | nil => rfl
  | cons s program ih =>
    rw [List.foldl_cons, ih, assembleFlow_names, List.flatMap_cons, internAll_append]

/-- The emission of a program behind the code there is: its draft, its jumps, and its labels
over those of before. -/
theorem foldl_flow (program : List Statement) (c : Compiler) {consts : List Literal}
    {names : List PyStr} (hconsts : (program.foldl assembleFlow c).consts <+: consts)
    (hnames : (program.foldl assembleFlow c).names <+: names) :
    (program.foldl assembleFlow c).code = c.code ++ program.flatMap (draft consts names) ∧
    (program.foldl assembleFlow c).jumpsToFix =
      c.jumpsToFix ++ jumpsFrom c.code.length program ∧
    ∀ l, (program.foldl assembleFlow c).labels.get? l =
      match place? l program with
      | some k => some (c.code.length + offset program k)
      | none => c.labels.get? l := by
  induction program generalizing c with
  | nil => exact ⟨(List.append_nil _).symm, (List.append_nil _).symm, fun _ => rfl⟩
  | cons s program ih =>
    rw [List.foldl_cons] at hconsts hnames ⊢
    have hearlyConsts : (c.assembleFlow s).consts <+: consts := by
      rw [foldl_flow_consts] at hconsts
      exact (prefix_internAll _ _).trans hconsts
    have hearlyNames : (c.assembleFlow s).names <+: names := by
      rw [foldl_flow_names] at hnames
      exact (prefix_internAll _ _).trans hnames
    have hcode := assembleFlow_code c s hearlyConsts hearlyNames
    have hlength : (c.assembleFlow s).code.length = c.code.length + s.size := by
      rw [hcode, List.length_append, length_draft]
    obtain ⟨hcode', hjumps', hlabels'⟩ := ih (c.assembleFlow s) hconsts hnames
    refine ⟨?_, ?_, fun l => ?_⟩
    · rw [hcode', hcode, List.append_assoc, List.flatMap_cons]
    · rw [hjumps', assembleFlow_jumpsToFix, hlength, List.append_assoc]
      refine congrArg (c.jumpsToFix ++ ·) ?_
      cases s <;> rfl
    · rw [hlabels', place?]
      cases place? l program with
      | some k =>
        have hoffset : offset (s :: program) (k + 1) = s.size + offset program k := by
          rw [offset, offset, programSize, programSize, List.take_succ_cons, List.map_cons,
            List.sum_cons]
        dsimp only
        rw [hlength, hoffset, Nat.add_assoc]
      | none =>
        dsimp only
        rw [assembleFlow_labels]
        by_cases hs : s.label? = some l
        · rw [if_pos hs, if_pos hs]
          rfl
        · rw [if_neg hs, if_neg hs]

end Compiler

/-- What the emission with the jumps put aside and the patching make of a program. -/
def backpatched (program : List Statement) : Except CompileError CodeObject :=
  let c := program.foldl Compiler.assembleFlow Compiler.init
  (Compiler.fixJumps c.labels c.code c.jumpsToFix).map fun code => ⟨code, c.consts, c.names⟩

theorem pooled_of_statement
    (hconsts : (program.flatMap Statement.literals).dedup.length ≤ 65536)
    (hnames : (program.flatMap Statement.names).dedup.length ≤ 65536) {i : Instr}
    (hi : .instr i ∈ program) : Pooled (constPool program) (namePool program) i where
  literal val hval := by
    have hmem : val ∈ program.flatMap Statement.literals := List.mem_flatMap.mpr ⟨_, hi, hval⟩
    exact ⟨mem_internAll.mpr (Or.inr hmem), (poolIndex_internAll_lt hmem).trans_le hconsts⟩
  name x hx := by
    have hmem : x ∈ program.flatMap Statement.names := List.mem_flatMap.mpr ⟨_, hi, hx⟩
    exact ⟨mem_internAll.mpr (Or.inr hmem), (poolIndex_internAll_lt hmem).trans_le hnames⟩

/-- The compiler behind the emission of a program. -/
structure Emitted (program : List Statement) (c : Compiler) : Prop where
  consts : c.consts = constPool program
  names : c.names = namePool program
  code : c.code = program.flatMap (draft (constPool program) (namePool program))
  jumps : c.jumpsToFix = jumpsFrom 0 program
  labels : ∀ l, c.labels.get? l = (place? l program).map (offset program)

theorem emitted (program : List Statement) :
    Emitted program (program.foldl Compiler.assembleFlow .init) := by
  have hconsts : (program.foldl Compiler.assembleFlow .init).consts = constPool program :=
    Compiler.foldl_flow_consts program .init
  have hnames : (program.foldl Compiler.assembleFlow .init).names = namePool program :=
    Compiler.foldl_flow_names program .init
  have hprefix : (program.foldl Compiler.assembleFlow .init).consts <+: constPool program :=
    hconsts ▸ List.prefix_rfl
  have hprefix' : (program.foldl Compiler.assembleFlow .init).names <+: namePool program :=
    hnames ▸ List.prefix_rfl
  obtain ⟨hcode, hjumps, hlabels⟩ := Compiler.foldl_flow program .init hprefix hprefix'
  refine ⟨hconsts, hnames, hcode, hjumps, fun l => ?_⟩
  rw [hlabels l]
  cases place? l program with
  | none => rfl
  | some k => exact congrArg some (Nat.zero_add _)

theorem backpatched_undefined (h : ¬ Defined program) :
    ∃ conditional target, .jump conditional target ∈ program ∧ target ∉ labels program ∧
      backpatched program = .error (.valueError (PyStr.lit "Undefined label: " ++ target)) := by
  obtain ⟨conditional, target, hmem, hno⟩ : ∃ conditional target,
      .jump conditional target ∈ program ∧ target ∉ labels program := by
    simpa only [Defined, not_forall, exists_prop] using h
  have hemitted := emitted program
  have hnone : (program.foldl Compiler.assembleFlow .init).labels.get? target = none := by
    rw [hemitted.labels, place?_eq_none.mpr hno, Option.map_none]
  obtain ⟨conditional', target', hmem', hnone', hfix⟩ := fixJumps_undefined _ hmem hnone
    (program.foldl Compiler.assembleFlow .init).code 0
  refine ⟨conditional', target', hmem', ?_, ?_⟩
  · rw [hemitted.labels] at hnone'
    exact place?_eq_none.mp (Option.map_eq_none_iff.mp hnone')
  · rw [backpatched, hemitted.jumps]
    exact congrArg (Except.map _) hfix

theorem backpatched_defined (h : Defined program) :
    backpatched program = .ok ⟨program.flatMap (layout program (constPool program)
      (namePool program)), constPool program, namePool program⟩ := by
  have hemitted := emitted program
  have hlabels : ∀ conditional target, .jump conditional target ∈ program →
      (program.foldl Compiler.assembleFlow .init).labels.get? target =
        some (offset program (goto program target)) := by
    intro conditional target hmem
    obtain ⟨k, hk⟩ := Option.ne_none_iff_exists'.mp
      (mt place?_eq_none.mp (not_not.mpr (h conditional target hmem)))
    rw [hemitted.labels, goto, hk]
    rfl
  have hfix := fixJumps_eq (constPool program) (namePool program) _ _ program hlabels []
  rw [backpatched, hemitted.jumps, hemitted.code, hemitted.consts, hemitted.names]
  exact (congrArg (Except.map _) hfix).trans rfl

theorem laid_of_pools (hshort : programSize program < 65536)
    (hconsts : (program.flatMap Statement.literals).dedup.length ≤ 65536)
    (hnames : (program.flatMap Statement.names).dedup.length ≤ 65536) :
    Laid program ⟨program.flatMap (layout program (constPool program) (namePool program)),
      constPool program, namePool program⟩ :=
  ⟨rfl, fun _ hi => pooled_of_statement hconsts hnames hi, hshort⟩

/-- Without jumps there is nothing to put aside. -/
theorem backpatched_jumpless {source : PyStr} (hsource : Renders source program)
    (h : Jumpless program) : Compiler.init.compile source = backpatched program := by
  have hharmless : ∀ s ∈ program, s.Harmless := by
    intro s hs
    cases s with
    | instr i => trivial
    | jump conditional target => exact absurd hs (h conditional target)
  have hlayout : program.flatMap (layout program (constPool program) (namePool program)) =
      program.flatMap (encode (constPool program) (namePool program)) := by
    refine List.flatMap_congr fun s hs => ?_
    cases s with
    | instr i => rfl
    | jump conditional target => exact absurd hs (h conditional target)
  have hdefined : Defined program := fun conditional target hmem =>
    absurd hmem (h conditional target)
  rw [backpatched_defined hdefined, hlayout, compile_renders hsource hharmless]
  rfl

/-- What the jump branch and the patching are for: a missing label is reported, otherwise
the code lays the program out, as far as two bytes hold the offsets and the pools; on
programs without jumps this is what the compiler makes. -/
theorem backpatched_lays_out (program : List Statement) :
    (¬ Defined program → ∃ conditional target, .jump conditional target ∈ program ∧
      target ∉ labels program ∧
      backpatched program = .error (.valueError (PyStr.lit "Undefined label: " ++ target))) ∧
    (Defined program → ∃ co, backpatched program = .ok co ∧
      (programSize program < 65536 →
        (program.flatMap Statement.literals).dedup.length ≤ 65536 →
        (program.flatMap Statement.names).dedup.length ≤ 65536 → Laid program co)) ∧
    (Jumpless program → ∀ source, Renders source program →
      Compiler.init.compile source = backpatched program) :=
  ⟨backpatched_undefined, fun h => ⟨_, backpatched_defined h, laid_of_pools⟩,
    fun h _ hsource => backpatched_jumpless hsource h⟩

/-- A countdown from `2`. -/
def countdown : List Statement :=
  [.instr (.push (.int 2)), .instr (.store (PyStr.lit "n")), .instr (.label (PyStr.lit "again")),
    .instr (.load (PyStr.lit "n")), .jump true (PyStr.lit "done"), .instr (.load (PyStr.lit "n")),
    .instr .print, .instr (.load (PyStr.lit "n")), .instr (.push (.int 1)), .instr .sub,
    .instr (.store (PyStr.lit "n")), .jump false (PyStr.lit "again"),
    .instr (.label (PyStr.lit "done"))]

theorem countdown_defined : Defined countdown := by
  have hlabels : labels countdown = [PyStr.lit "again", PyStr.lit "done"] := rfl
  intro conditional target hmem
  rw [hlabels]
  simp only [countdown, List.mem_cons, reduceCtorEq, false_or, Statement.jump.injEq,
    List.not_mem_nil, or_false] at hmem
  rcases hmem with ⟨-, rfl⟩ | ⟨-, rfl⟩ <;> simp

theorem countdown_laid : Laid countdown
    ⟨countdown.flatMap (layout countdown (constPool countdown) (namePool countdown)),
      constPool countdown, namePool countdown⟩ :=
  laid_of_pools (by decide) (by decide) (by decide)

theorem backpatched_lays_out_countdown : ∃ co, backpatched countdown = .ok co ∧
    Laid countdown co := by
  obtain ⟨co, hco, hlaid⟩ := (backpatched_lays_out countdown).2.1 countdown_defined
  exact ⟨co, hco, hlaid (by decide) (by decide) (by decide)⟩

/-- The loop is left: both executions end. -/
theorem laid_out_runs_countdown : ∃ co, backpatched countdown = .ok co ∧
    ∃ r, Stops (flowNext countdown) (0, .init) r ∧
      ∃ fuel d, VirtualMachine.init.run co fuel = some d ∧ FlowEnds countdown r d := by
  have hstops : (iterate (flowNext countdown) 40 (0, .init)).isSome := by decide +kernel
  obtain ⟨r, hr⟩ := Option.isSome_iff_exists.mp hstops
  exact ⟨_, backpatched_defined countdown_defined, r, ⟨40, hr⟩,
    (laid_out_runs countdown_laid).2 r ⟨40, hr⟩⟩

end PythonPortfolio.Ouroboros
