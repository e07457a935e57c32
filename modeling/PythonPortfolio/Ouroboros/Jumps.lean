import Mathlib.Algebra.Order.BigOperators.Group.List
import PythonPortfolio.Ouroboros.Refinement

/-!
# Jumps

`OpCode` has an attribute for each jump, so the compiler takes a jump for an
instruction without operand: the branch that puts jumps aside is never reached,
nothing is left to patch, and the target is compiled as an instruction of its own.
-/

namespace PythonPortfolio.Ouroboros

open Library Library.BigEndian

/-! ## What a jump should do -/

/-- The number of bytes of a statement; a jump has an operand of two bytes. -/
def Statement.size : Statement → Nat
  | .instr i => i.size
  | .jump _ _ => 3

def programSize (program : List Statement) : Nat := (program.map Statement.size).sum

/-- The byte offset of the `k`-th statement. A label takes no bytes: its offset is that
of the first instruction after it. -/
def offset (program : List Statement) (k : Nat) : Nat := programSize (program.take k)

def Statement.label? : Statement → Option PyStr
  | .instr (.label l) => some l
  | _ => none

def labels (program : List Statement) : List PyStr := program.filterMap Statement.label?

/-- Every label a jump names is defined. -/
def Defined (program : List Statement) : Prop :=
  ∀ conditional target, .jump conditional target ∈ program → target ∈ labels program

def Jumpless (program : List Statement) : Prop :=
  ∀ conditional target, .jump conditional target ∉ program

def jumpOp (conditional : Bool) : OpCode := if conditional then .jmpIfFalse else .jmp

/-- The machine at a jump at `here` with a label at `there`: it goes there when the jump
is taken, and behind the jump otherwise. -/
def Lands (co : CodeObject) (conditional : Bool) (here there : Nat) : Prop :=
  ∀ vm : VirtualMachine, vm.ip = here + 1 →
    if conditional then
      ∀ val stack, vm.stack = val :: stack → vm.execute co OpCode.jmpIfFalse.byte =
        .next { vm with stack := stack, ip := if val.truthy then here + 3 else there }
    else vm.execute co OpCode.jmp.byte = .next { vm with ip := there }

/-- Every statement takes its bytes, and behind the opcode of a jump stands the offset of
its label. -/
structure Reaches (program : List Statement) (co : CodeObject) : Prop where
  length : co.coCode.length = programSize program
  operand : ∀ k j conditional target, program[k]? = some (.jump conditional target) →
    program[j]? = some (.instr (.label target)) →
      (∃ rest, co.coCode.drop (offset program k) =
        (jumpOp conditional).byte :: (toBytes 2 (offset program j) ++ rest)) ∧
      Lands co conditional (offset program k) (offset program j)

/-- The jumps of the program reach their labels, or a missing label is reported. -/
def JumpsReach (source : PyStr) (program : List Statement) : Prop :=
  (Defined program → programSize program < 65536 →
    ∃ co, Compiler.init.compile source = .ok co ∧ Reaches program co) ∧
  (¬ Defined program → ∃ message, Compiler.init.compile source = .error (.valueError message))

/-- The machine does its part: where the operand stands, the jump lands. -/
theorem lands_of_operand {co : CodeObject} {conditional : Bool} {here there : Nat} {rest : Bytes}
    (hcode : co.coCode.drop here = (jumpOp conditional).byte :: (toBytes 2 there ++ rest))
    (hthere : there < 65536) : Lands co conditional here there := by
  intro vm hip
  have hrest : co.coCode.drop vm.ip = toBytes 2 there ++ rest := by
    rw [hip, ← List.drop_drop, hcode]
    rfl
  cases conditional with
  | false =>
    show vm.execute co OpCode.jmp.byte = _
    unfold VirtualMachine.execute
    rw [OpCode.ofByte?_byte]
    dsimp only
    rw [readArg_eq hrest hthere]
  | true =>
    intro val stack hstack
    unfold VirtualMachine.execute
    rw [OpCode.ofByte?_byte]
    dsimp only
    rw [readArg_eq hrest hthere]
    simp only [VirtualMachine.pop, hstack, hip]
    split <;> rfl

/-! ## What the compiler does -/

theorem length_targetCode_le (target : PyStr) : (targetCode target).length ≤ 1 := by
  unfold targetCode
  split
  · exact le_refl 1
  · exact Nat.zero_le 1

/-- A statement gets its bytes, except that a jump gets fewer. -/
theorem length_encode_le (consts : List Literal) (names : List PyStr) (s : Statement) :
    (encode consts names s).length ≤ s.size ∧
      ∀ conditional target, s = .jump conditional target →
        (encode consts names s).length < s.size := by
  cases s with
  | instr i => exact ⟨(length_encode consts names i).le, nofun⟩
  | jump conditional target =>
    have hlt : (encode consts names (.jump conditional target)).length < 3 := by
      have := length_targetCode_le target
      rw [encode, List.length_cons]
      omega
    exact ⟨hlt.le, fun _ _ _ => hlt⟩

theorem length_compiledCode_eq (program : List Statement) :
    (compiledCode program).coCode.length =
      (program.map fun s => (encode (constPool program) (namePool program) s).length).sum :=
  List.length_flatMap

/-- A program with a jump is compiled to too few bytes. -/
theorem length_compiledCode_lt {program : List Statement} (h : ¬ Jumpless program) :
    (compiledCode program).coCode.length < programSize program := by
  obtain ⟨conditional, target, hjump⟩ : ∃ conditional target,
      Statement.jump conditional target ∈ program := by
    simpa only [Jumpless, not_forall, not_not] using h
  rw [length_compiledCode_eq]
  exact List.sum_lt_sum _ _ (fun s _ => (length_encode_le _ _ s).1)
    ⟨_, hjump, (length_encode_le _ _ _).2 conditional target rfl⟩

theorem length_compiledCode {program : List Statement} (h : Jumpless program) :
    (compiledCode program).coCode.length = programSize program := by
  rw [length_compiledCode_eq, programSize]
  refine congrArg List.sum (List.map_congr_left fun s hs => ?_)
  cases s with
  | instr i => exact length_encode _ _ i
  | jump conditional target => exact absurd hs (h conditional target)

/-- What one step of the walk can do: it goes on without putting a jump aside, it runs
out of tokens, or its argument is no number. -/
theorem instruction_cases (c : Compiler) (token : Token) (next : Option Token) :
    (∃ consumed c', c.instruction token next = .ok (consumed, c') ∧
      c'.jumpsToFix = c.jumpsToFix) ∨
    c.instruction token next = .error .indexError ∨
    ∃ arg e, next = some arg ∧ Compiler.argument arg = .error e ∧
      c.instruction token next = .error e := by
  have hstep := c.instruction_step token next
  generalize c.instruction token next = r at hstep ⊢
  cases hstep with
  | opcode | unknown | other => exact Or.inl ⟨_, _, rfl, rfl⟩
  | push => exact Or.inl ⟨true, _, rfl, by rw [Compiler.emitConst_eq]⟩
  | store | load => exact Or.inl ⟨true, _, rfl, by rw [Compiler.emitName_eq]⟩
  | missing => exact Or.inr (Or.inl rfl)
  | notConverted arg e hnext harg => exact Or.inr (Or.inr ⟨arg, e, hnext, harg, rfl⟩)

theorem instruction_jumpsToFix {c c' : Compiler} {token : Token} {next : Option Token}
    {consumed : Bool} (h : c.instruction token next = .ok (consumed, c')) :
    c'.jumpsToFix = c.jumpsToFix := by
  rcases instruction_cases c token next with ⟨_, _, hok, hj⟩ | herr | ⟨_, _, _, _, herr⟩
  · rw [hok] at h
    cases h
    exact hj
  · rw [herr] at h
    cases h
  · rw [herr] at h
    cases h

/-- Every token that stands for a number is one. -/
def Convertible (tokens : List Token) : Prop :=
  ∀ t ∈ tokens, t.typ = .number → (PyStr.int? t.val).isSome = true

theorem argument_ok {arg : Token} (h : arg.typ = .number → (PyStr.int? arg.val).isSome = true) :
    ∃ val, Compiler.argument arg = .ok val := by
  unfold Compiler.argument
  split
  · next htyp =>
    obtain ⟨n, hn⟩ := Option.isSome_iff_exists.mp (h htyp)
    rw [hn]
    exact ⟨_, rfl⟩
  · exact ⟨_, rfl⟩

/-- The walk puts no jump aside; it can only run out of tokens. -/
theorem generate_cases (c : Compiler) {tokens : List Token} (h : Convertible tokens) :
    (∃ c', c.generate tokens = .ok c' ∧ c'.jumpsToFix = c.jumpsToFix) ∨
      c.generate tokens = .error .indexError := by
  have harg : ∀ {token arg : Token} {e : CompileError} {rest : List Token},
      Convertible (token :: arg :: rest) → Compiler.argument arg ≠ .error e := by
    intro token arg e rest hconv he
    obtain ⟨val, hval⟩ := argument_ok (hconv arg (by simp))
    rw [hval] at he
    cases he
  fun_induction Compiler.generate c tokens with
  | case1 c => exact Or.inl ⟨c, rfl, rfl⟩
  | case2 c token =>
    rcases instruction_cases c token none with ⟨_, c', hok, hj⟩ | herr | ⟨_, _, hnone, _⟩
    · rw [hok]
      exact Or.inl ⟨c', rfl, hj⟩
    · rw [herr]
      exact Or.inr rfl
    · cases hnone
  | case3 c token next rest hcolon ih =>
    exact ih fun t ht => h t (List.mem_cons_of_mem _ (List.mem_cons_of_mem _ ht))
  | case4 c token next rest hcolon e hi =>
    rcases instruction_cases c token (some next) with ⟨_, _, hok, _⟩ | herr | ⟨arg, e', ha, he, _⟩
    · rw [hok] at hi
      cases hi
    · rw [herr] at hi
      cases hi
      exact Or.inr rfl
    · cases ha
      exact absurd he (harg h)
  | case5 c token next rest hcolon c₁ hi ih =>
    rw [← instruction_jumpsToFix hi]
    exact ih fun t ht => h t (List.mem_cons_of_mem _ (List.mem_cons_of_mem _ ht))
  | case6 c token next rest hcolon c₁ hi ih =>
    rw [← instruction_jumpsToFix hi]
    exact ih fun t ht => h t (List.mem_cons_of_mem _ ht)

theorem partTokens_convertible {w : PyStr} (hw : PyStr.Identifier w) :
    Convertible (partTokens w) := by
  rw [partTokens_identifier hw]
  intro t ht
  obtain rfl := List.mem_singleton.mp ht
  nofun

theorem literal_convertible {val : Literal} {arg : PyStr} (h : SpellsLiteral val arg) :
    Convertible (partTokens arg) := by
  obtain ⟨token, htoken, _, hval⟩ := partTokens_literal h
  rw [htoken]
  intro t ht htyp
  obtain rfl := List.mem_singleton.mp ht
  rw [Compiler.argument, htyp] at hval
  cases hn : PyStr.int? t.val with
  | none =>
    rw [hn] at hval
    cases hval
  | some n => rfl

theorem Convertible.append {l l' : List Token} (h : Convertible l) (h' : Convertible l') :
    Convertible (l ++ l') :=
  fun t ht => (List.mem_append.mp ht).elim (h t) (h' t)

/-- The numbers of a rendered program are decimal. -/
theorem spells_convertible {s : Statement} {words : List PyStr} (h : Spells s words) :
    Convertible (words.flatMap partTokens) := by
  have hmnemonic : ∀ {mnemonic w : PyStr}, SpellsMnemonic mnemonic w → mnemonic ≠ [] →
      Convertible (partTokens w) := fun hw hne =>
    partTokens_convertible (identifier_of_mnemonic hw hne)
  cases h with
  | push hw harg =>
    rw [List.flatMap_cons, List.flatMap_singleton]
    exact (hmnemonic hw (by decide)).append (literal_convertible harg)
  | store hw hx | load hw hx | jump hw hx | jumpIfFalse hw hx =>
    rw [List.flatMap_cons, List.flatMap_singleton]
    exact (hmnemonic hw (by decide)).append (partTokens_convertible hx)
  | @plain i op w hi hw =>
    rw [List.flatMap_singleton]
    exact hmnemonic hw (by cases op <;> decide)
  | @label l hl =>
    rw [List.flatMap_singleton, partTokens_label]
    intro t ht
    rcases List.mem_cons.mp ht with rfl | ht
    · nofun
    · obtain rfl := List.mem_singleton.mp ht
      nofun

/-- A missing label goes unreported. -/
theorem compile_ne_valueError {source : PyStr} {program : List Statement}
    (h : Renders source program) (message : PyStr) :
    Compiler.init.compile source ≠ .error (.valueError message) := by
  obtain ⟨words, hspells, htokens⟩ := tokenize_renders h
  have hconv : Convertible (tokenize source) := by
    rw [htokens]
    clear htokens h
    induction hspells with
    | nil => nofun
    | cons hs _ ih =>
      intro t ht
      rw [List.flatMap_cons] at ht
      exact (List.mem_append.mp ht).elim (spells_convertible hs t) (ih t)
  unfold Compiler.compile
  rcases generate_cases Compiler.init hconv with ⟨c, hc, hj⟩ | herr
  · rw [hc]
    dsimp only
    rw [hj]
    nofun
  · rw [herr]
    nofun

/-- Jumps reach their labels exactly in the programs without jumps, those apart of
which nothing is asked because the code is too long. For a program all of whose labels
are defined, the targets are taken not to read as `PUSH`, `STORE` or `LOAD`. -/
theorem jumps_reach_iff {source : PyStr} {program : List Statement}
    (h : Renders source program) :
    (Jumpless program ∨ Defined program ∧ 65536 ≤ programSize program →
      JumpsReach source program) ∧
    ((Defined program → ∀ s ∈ program, s.Harmless) → JumpsReach source program →
      Jumpless program ∨ Defined program ∧ 65536 ≤ programSize program) := by
  constructor
  · intro hx
    rcases hx with hno | ⟨hdef, hlong⟩
    · have hharmless : ∀ s ∈ program, s.Harmless := by
        intro s hs
        cases s with
        | instr i => trivial
        | jump conditional target => exact absurd hs (hno conditional target)
      refine ⟨fun _ _ => ⟨_, compile_renders h hharmless, length_compiledCode hno, ?_⟩,
        fun hdef => absurd (fun conditional target hmem => absurd hmem (hno _ _)) hdef⟩
      intro k j conditional target hk
      exact absurd (List.mem_of_getElem? hk) (hno conditional target)
    · exact ⟨fun _ hshort => absurd hshort (Nat.not_lt.mpr hlong), fun hundef => absurd hdef hundef⟩
  · intro hharmless hreach
    by_contra hcond
    obtain ⟨hjump, hshort⟩ := not_or.mp hcond
    by_cases hdef : Defined program
    · have hsize : programSize program < 65536 := by
        by_contra hlong
        exact hshort ⟨hdef, Nat.not_lt.mp hlong⟩
      obtain ⟨co, hco, hreaches⟩ := hreach.1 hdef hsize
      rw [compile_renders h (hharmless hdef)] at hco
      cases hco
      have hlength := hreaches.length
      have := length_compiledCode_lt hjump
      omega
    · obtain ⟨message, herr⟩ := hreach.2 hdef
      exact compile_ne_valueError h message herr

theorem jumps_reach_sample : JumpsReach sampleSource (sampleProgram.map .instr) := by
  refine (jumps_reach_iff sample_renders).1 (Or.inl fun conditional target hmem => ?_)
  obtain ⟨i, _, hi⟩ := List.mem_map.mp hmem
  cases hi

/-- A jump to the label behind it. -/
def skipSource : PyStr := PyStr.lit "JMP skip\nskip:"

def skipProgram : List Statement :=
  [.jump false (PyStr.lit "skip"), .instr (.label (PyStr.lit "skip"))]

theorem skip_renders : Renders skipSource skipProgram := by
  have hlines : PyStr.splitlines skipSource = [PyStr.lit "JMP skip", PyStr.lit "skip:"] := by decide
  have hspace : PyChar.isSpace (.scalar ' ') = true := by decide
  refine ⟨skipProgram.map some, ?_, rfl⟩
  rw [hlines]
  refine .cons ?_ (.cons ?_ .nil)
  · exact ⟨[PyStr.lit "JMP", PyStr.lit "skip"], PyStr.lit "JMP skip", [], by decide,
      .cons (w := PyStr.lit "JMP") .nil (by decide) hspace
        (.last (w := PyStr.lit "skip") .nil (by decide)),
      trivial, .jump (by decide) (by decide)⟩
  · exact ⟨[PyStr.lit "skip:"], PyStr.lit "skip:", [], by decide, .last .nil (by decide), trivial,
      .label (by decide)⟩

/-- The jump is compiled to its opcode alone. -/
theorem jump_without_operand : ¬ ∀ (source : PyStr) (program : List Statement),
    Renders source program → (labels program).Nodup → JumpsReach source program := by
  intro hall
  have hreach := hall skipSource skipProgram skip_renders (by decide)
  have hdef : Defined skipProgram := by
    intro conditional target hmem
    rcases List.mem_cons.mp hmem with he | hmem
    · cases he
      decide
    · cases List.mem_singleton.mp hmem
  obtain ⟨co, hco, hreaches⟩ := hreach.1 hdef (by decide)
  have hcode : Compiler.init.compile skipSource = .ok ⟨[0x20], [], []⟩ := by rfl
  rw [hcode] at hco
  cases hco
  exact absurd hreaches.length (by decide)

end PythonPortfolio.Ouroboros
