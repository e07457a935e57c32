import PythonPortfolio.Ouroboros.Listing

/-!
# The operands of loads and stores

The pools grow without bound, but an operand has two bytes: the index that the machine
reads is the place in the pool as long as that is below `65536`, and otherwise the place
of something else. A program of `PUSH`, `LOAD` and `STORE` is written here with any text
between the quotes of a literal, also text that the compiler cuts up.
-/

namespace PythonPortfolio.Ouroboros

open Library Library.BigEndian

/-! ## Lines with any literal -/

def quoted (s : PyStr) : PyStr := .scalar '"' :: (s ++ [.scalar '"'])

/-- The text of a literal: a number, or any characters in quotes. -/
inductive WritesLiteral : Literal → PyStr → Prop
  | int {n : Nat} {digits : PyStr} (hne : digits ≠ []) (hn : PyStr.int? digits = some n) :
      WritesLiteral (.int n) digits
  | str {s : PyStr} (hs : .scalar '"' ∉ s) : WritesLiteral (.str s) (quoted s)

/-- A line with a mnemonic and an operand, with blanks and a comment. -/
def OperandLine (mnemonic arg line : PyStr) : Prop :=
  ∃ lead w gap trail comment, line = lead ++ (w ++ (gap ++ (arg ++ trail))) ++ comment ∧
    PyStr.Blank lead ∧ SpellsMnemonic mnemonic w ∧ gap ≠ [] ∧ PyStr.Blank gap ∧
    PyStr.Blank trail ∧ Comment comment

inductive WritesLine (line : PyStr) : Instr → Prop
  | push {val : Literal} {arg : PyStr} (hval : WritesLiteral val arg)
      (hline : OperandLine (PyStr.lit "PUSH") arg line) : WritesLine line (.push val)
  | store {x : PyStr} (hx : PyStr.Identifier x)
      (hline : OperandLine (PyStr.lit "STORE") x line) : WritesLine line (.store x)
  | load {x : PyStr} (hx : PyStr.Identifier x)
      (hline : OperandLine (PyStr.lit "LOAD") x line) : WritesLine line (.load x)

/-- A source of `PUSH`, `LOAD` and `STORE` instructions, one per line, and blank lines. -/
inductive WritesLines : List PyStr → List Instr → Prop
  | nil : WritesLines [] []
  | blank {line : PyStr} {lines : List PyStr} {program : List Instr}
      (hline : RendersLine line none) (h : WritesLines lines program) :
      WritesLines (line :: lines) program
  | cons {line : PyStr} {lines : List PyStr} {i : Instr} {program : List Instr}
      (hline : WritesLine line i) (h : WritesLines lines program) :
      WritesLines (line :: lines) (i :: program)

/-- The literals that the tokenizer keeps whole. -/
def Literal.Plain : Literal → Prop
  | .int _ => True
  | .str s => Quotable s

theorem operandLine_renders {mnemonic arg line : PyStr} {statement : Statement}
    (hline : OperandLine mnemonic arg line) (hne : mnemonic ≠ []) (harg : PyStr.Word arg)
    (hspells : ∀ w, SpellsMnemonic mnemonic w → Spells statement [w, arg]) :
    RendersLine line (some statement) := by
  obtain ⟨lead, w, gap, trail, comment, rfl, hlead, hw, hgapne, hgap, htrail, hcomment⟩ := hline
  have hword := PyStr.word_of_identifier (identifier_of_mnemonic hw hne)
  exact ⟨[w, arg], _, comment, rfl, PyStr.spaced_pair hlead hword hgapne hgap harg htrail, hcomment,
    hspells w hw⟩

theorem word_quoted {s : PyStr} (hs : Quotable s) : PyStr.Word (quoted s) := by
  have hquote : PyChar.isSpace (.scalar '"') = false := by decide
  refine ⟨List.cons_ne_nil _ _, fun c hc => ?_⟩
  rcases List.mem_cons.mp hc with rfl | hc
  · exact hquote
  · rcases List.mem_append.mp hc with hc | hc
    · exact (hs.1 c hc).1
    · rw [List.mem_singleton.mp hc]
      exact hquote

theorem pushLine_renders {val : Literal} {arg line : PyStr} (hval : SpellsLiteral val arg)
    (hline : OperandLine (PyStr.lit "PUSH") arg line) :
    RendersLine line (some (.instr (.push val))) := by
  refine operandLine_renders hline (by decide) ?_ fun w hw => .push hw hval
  cases hval with
  | int hne hn => exact PyStr.word_of_int? hne hn
  | str hs => exact word_quoted hs

/-- A written line is rendered when its literal is plain. -/
theorem WritesLine.renders {line : PyStr} {i : Instr} (h : WritesLine line i)
    (hplain : ∀ val, i = .push val → val.Plain) : RendersLine line (some (.instr i)) := by
  cases h with
  | @push val arg hval hline =>
    refine pushLine_renders ?_ hline
    cases hval with
    | int hne hn => exact .int hne hn
    | @str s hs => exact .str (hplain (.str s) rfl)
  | store hx hline =>
    exact operandLine_renders hline (by decide) (PyStr.word_of_identifier hx) fun w hw =>
      .store hw hx
  | load hx hline =>
    exact operandLine_renders hline (by decide) (PyStr.word_of_identifier hx) fun w hw =>
      .load hw hx

theorem WritesLines.renders {source : PyStr} {lines : List PyStr} {program : List Instr}
    (h : WritesLines lines program) (hplain : ∀ val, .push val ∈ program → val.Plain)
    (hlines : PyStr.splitlines source = lines) : Renders source (program.map .instr) := by
  unfold Renders
  rw [hlines]
  clear hlines
  induction h with
  | nil => exact ⟨[], .nil, rfl⟩
  | blank hline _ ih =>
    obtain ⟨statements, hrender, hprogram⟩ := ih hplain
    exact ⟨none :: statements, .cons hline hrender, hprogram⟩
  | @cons line lines i program hline _ ih =>
    obtain ⟨statements, hrender, hprogram⟩ :=
      ih fun val hval => hplain val (List.mem_cons_of_mem _ hval)
    have hfirst := hline.renders fun val hi => hplain val (hi ▸ List.mem_cons_self)
    refine ⟨some (.instr i) :: statements, .cons hfirst hrender, ?_⟩
    rw [List.reduceOption_cons_of_some, hprogram]
    rfl

/-! ## Reading an operand -/

/-- The machine at `ip` reads the operand `idx`. -/
def ReadsOperand (code : Bytes) (ip idx : Nat) : Prop :=
  ∀ (vm : VirtualMachine) (k : Nat → VirtualMachine → Step), vm.ip = ip →
    vm.readArg code k = k idx { vm with ip := ip + 2 }

/-- At `ip` stands the opcode, and the operand read behind it is an index of `a`. -/
def Refers {α : Type} (code : Bytes) (pool : List α) (ip : Nat) (op : OpCode) (a : α) : Prop :=
  code[ip]? = some op.byte ∧ ∃ idx, ReadsOperand code (ip + 1) idx ∧ pool[idx]? = some a

theorem readsOperand_mod {code rest : Bytes} {ip arg : Nat}
    (hcode : code.drop ip = toBytes 2 arg ++ rest) : ReadsOperand code ip (arg % 65536) := by
  rintro vm k rfl
  exact readArg_mod hcode k

theorem ReadsOperand.unique {code : Bytes} {ip idx idx' : Nat} (h : ReadsOperand code ip idx)
    (h' : ReadsOperand code ip idx') : idx = idx' := by
  let vm : VirtualMachine := { VirtualMachine.init with ip := ip }
  have hread := h vm (fun idx vm => .next { vm with ip := idx }) rfl
  rw [h' vm _ rfl] at hread
  exact (congrArg VirtualMachine.ip (Step.next.inj hread)).symm

/-- An encoded operand refers to its value exactly when the place fits two bytes. -/
theorem refers_iff {α : Type} [DecidableEq α] {code rest : Bytes} {pool : List α} {ip : Nat}
    {op : OpCode} {a : α} (hcode : code.drop ip = op.byte :: (toBytes 2 (poolIndex pool a) ++ rest))
    (hpool : pool.Nodup) (ha : a ∈ pool) :
    Refers code pool ip op a ↔ poolIndex pool a < 65536 := by
  obtain ⟨hop, hbehind⟩ := drop_eq_cons hcode
  have hreads := readsOperand_mod hbehind
  constructor
  · rintro ⟨-, idx, hidx, hget⟩
    obtain rfl := hidx.unique hreads
    have := poolIndex_of_getElem? hpool hget
    omega
  · exact fun hlt => ⟨hop, _, hreads, getElem?_poolIndex_mod ha hlt⟩

/-! ## Programs of loads and stores -/

/-- The literals of a program, in the order of its instructions. -/
def pushed (program : List Instr) : List Literal :=
  (program.map Statement.instr).flatMap Statement.literals

/-- The names that a program loads and stores, in the order of its instructions. -/
def accessed (program : List Instr) : List PyStr :=
  (program.map Statement.instr).flatMap Statement.names

/-- The instruction at `ip` has its opcode, and an operand for its literal or name. -/
def Instr.Resolved (co : CodeObject) (ip : Nat) : Instr → Prop
  | .push val => Refers co.coCode co.coConsts ip .loadConst val
  | .store x => Refers co.coCode co.coNames ip .storeName x
  | .load x => Refers co.coCode co.coNames ip .loadName x
  | _ => False

/-- The source does not compile, or every instruction has its operand. -/
def OperandsResolve (source : PyStr) (program : List Instr) : Prop :=
  ∀ co, Compiler.init.compile source = .ok co → ∀ (k : Nat) (i : Instr), program[k]? = some i →
    i.Resolved co (3 * k)

/-- What stands for the literal or name of an instruction in its pool fits two bytes. -/
def Instr.Narrow (consts : List Literal) (names : List PyStr) : Instr → Prop
  | .push val => poolIndex consts val < 65536
  | .store x | .load x => poolIndex names x < 65536
  | _ => False

section Program

variable {lines : List PyStr} {program : List Instr}

theorem WritesLines.size (h : WritesLines lines program) : ∀ i ∈ program, i.size = 3 := by
  induction h with
  | nil => nofun
  | blank _ _ ih => exact ih
  | cons hline _ ih =>
    intro i hi
    rcases List.mem_cons.mp hi with rfl | hi
    · cases hline <;> rfl
    · exact ih i hi

theorem WritesLines.not_mem_quote (h : WritesLines lines program) {s : PyStr}
    (hs : .push (.str s) ∈ program) : .scalar '"' ∉ s := by
  induction h with
  | nil => cases hs
  | blank _ _ ih => exact ih hs
  | cons hline _ ih =>
    rcases List.mem_cons.mp hs with rfl | hs
    · cases hline with
      | push hval _ =>
        cases hval with
        | str hquote => exact hquote
    · exact ih hs

/-- Instructions of three bytes stand at the multiples of three. -/
theorem drop_encode (consts : List Literal) (names : List PyStr) (hsize : ∀ i ∈ program, i.size = 3)
    {k : Nat} {i : Instr} (hk : program[k]? = some i) :
    ∃ rest, ((program.map Statement.instr).flatMap (encode consts names)).drop (3 * k) =
      encode consts names (.instr i) ++ rest := by
  induction program generalizing k with
  | nil => cases hk
  | cons j program ih =>
    rw [List.map_cons, List.flatMap_cons]
    cases k with
    | zero =>
      obtain rfl := Option.some.inj hk
      exact ⟨_, rfl⟩
    | succ k =>
      have hlen : (encode consts names (.instr j)).length = 3 := by
        rw [length_encode, hsize j List.mem_cons_self]
      obtain ⟨rest, hrest⟩ := ih (fun i hi => hsize i (List.mem_cons_of_mem _ hi)) hk
      refine ⟨rest, ?_⟩
      rw [Nat.mul_succ, Nat.add_comm, ← List.drop_drop, List.drop_left' hlen, hrest]

/-- A program of plain literals has its operands when every place fits two bytes. -/
theorem resolved_iff (h : WritesLines lines program) {k : Nat} {i : Instr}
    (hk : program[k]? = some i) :
    i.Resolved (compiledCode (program.map .instr)) (3 * k) ↔
      i.Narrow (internAll [] (pushed program)) (internAll [] (accessed program)) := by
  have hmem : Statement.instr i ∈ program.map Statement.instr :=
    List.mem_map.mpr ⟨i, List.mem_of_getElem? hk, rfl⟩
  have hsize := h.size i (List.mem_of_getElem? hk)
  obtain ⟨rest, hcode⟩ := drop_encode (constPool (program.map .instr))
    (namePool (program.map .instr)) h.size hk
  cases i with
  | push val =>
    refine refers_iff hcode (nodup_internAll List.nodup_nil _) (mem_internAll.mpr (Or.inr ?_))
    exact List.mem_flatMap.mpr ⟨_, hmem, List.mem_singleton_self val⟩
  | store x | load x =>
    refine refers_iff hcode (nodup_internAll List.nodup_nil _) (mem_internAll.mpr (Or.inr ?_))
    exact List.mem_flatMap.mpr ⟨_, hmem, List.mem_singleton_self x⟩
  | label l => cases hsize
  | add | sub | mul | eq | print | halt => cases hsize

/-- All places fit when there are at most `65536` literals and as many names. -/
theorem narrow_iff (h : WritesLines lines program) :
    (∀ i ∈ program, i.Narrow (internAll [] (pushed program)) (internAll [] (accessed program))) ↔
      (pushed program).dedup.length ≤ 65536 ∧ (accessed program).dedup.length ≤ 65536 := by
  rw [← poolIndex_internAll_lt_iff, ← poolIndex_internAll_lt_iff]
  constructor
  · intro hnarrow
    constructor
    · intro val hval
      obtain ⟨s, hs, hval⟩ := List.mem_flatMap.mp hval
      obtain ⟨i, hi, rfl⟩ := List.mem_map.mp hs
      have := hnarrow i hi
      cases i with
      | push val' =>
        obtain rfl := List.mem_singleton.mp hval
        exact this
      | store | load | add | sub | mul | eq | print | halt | label => cases hval
    · intro x hx
      obtain ⟨s, hs, hx⟩ := List.mem_flatMap.mp hx
      obtain ⟨i, hi, rfl⟩ := List.mem_map.mp hs
      have := hnarrow i hi
      cases i with
      | store y | load y =>
        obtain rfl := List.mem_singleton.mp hx
        exact this
      | push | add | sub | mul | eq | print | halt | label => cases hx
  · rintro ⟨hconsts, hnames⟩ i hi
    have hmem : Statement.instr i ∈ program.map Statement.instr := List.mem_map.mpr ⟨i, hi, rfl⟩
    have hsize := h.size i hi
    cases i with
    | push val => exact hconsts val (List.mem_flatMap.mpr ⟨_, hmem, List.mem_singleton_self val⟩)
    | store x | load x =>
      exact hnames x (List.mem_flatMap.mpr ⟨_, hmem, List.mem_singleton_self x⟩)
    | label l => cases hsize
    | add | sub | mul | eq | print | halt => cases hsize

/-- A program of plain literals compiles to its instructions in order. -/
theorem WritesLines.compile {source : PyStr} (h : WritesLines (PyStr.splitlines source) program)
    (hplain : ∀ val, .push val ∈ program → val.Plain) :
    Compiler.init.compile source = .ok (compiledCode (program.map .instr)) := by
  refine compile_renders (h.renders hplain rfl) fun s hs => ?_
  obtain ⟨i, -, rfl⟩ := List.mem_map.mp hs
  trivial

/-- Operands are resolved exactly when compilation breaks off, or all literals are plain and
there are at most `65536` distinct ones and as many names. -/
theorem operands_resolve_iff {source : PyStr}
    (h : WritesLines (PyStr.splitlines source) program) :
    OperandsResolve source program ↔ ¬ Whole (tokenize source) ∨
      (∀ val, .push val ∈ program → val.Plain) ∧ (pushed program).dedup.length ≤ 65536 ∧
        (accessed program).dedup.length ≤ 65536 := by
  constructor
  · intro hresolve
    by_cases hwhole : Whole (tokenize source)
    · obtain ⟨co, hco⟩ := (compile_ok_iff source).mpr hwhole
      have hplain : ∀ val, .push val ∈ program → val.Plain := by
        intro val hval
        obtain ⟨k, hk⟩ := List.mem_iff_getElem?.mp hval
        cases val with
        | int n => trivial
        | str s =>
          obtain ⟨-, idx, -, hget⟩ := hresolve co hco k _ hk
          obtain ⟨hclean, hcolon⟩ := string_const hco (List.mem_of_getElem? hget)
          refine ⟨fun c hc => ⟨(hclean c hc).1, (hclean c hc).2, fun he => ?_⟩, hcolon⟩
          exact h.not_mem_quote hval (he ▸ hc)
      have hcompile := h.compile hplain
      refine Or.inr ⟨hplain, (narrow_iff h).mp fun i hi => ?_⟩
      obtain ⟨k, hk⟩ := List.mem_iff_getElem?.mp hi
      exact (resolved_iff h hk).mp (hresolve _ hcompile k i hk)
    · exact Or.inl hwhole
  · rintro (hbroken | ⟨hplain, hcount⟩) co hco k i hk
    · exact absurd ((compile_ok_iff source).mp ⟨co, hco⟩) hbroken
    · rw [h.compile hplain] at hco
      cases hco
      exact (resolved_iff h hk).mpr ((narrow_iff h).mpr hcount i (List.mem_of_getElem? hk))

end Program

/-- `PUSH arg` on a line. -/
theorem pushLine (arg : PyStr) : OperandLine (PyStr.lit "PUSH") arg (PyStr.lit "PUSH " ++ arg) := by
  refine ⟨[], PyStr.lit "PUSH", PyStr.lit " ", [], [], ?_, by decide, by decide, by decide,
    by decide, by decide, trivial⟩
  rw [List.append_nil, List.append_nil, List.nil_append]
  rfl

/-- Two spellings of a number are one constant. -/
theorem operands_resolve_iff_numbers : OperandsResolve (PyStr.lit "PUSH 5\nPUSH 05")
    [.push (.int 5), .push (.int 5)] := by
  have hlines : PyStr.splitlines (PyStr.lit "PUSH 5\nPUSH 05") =
      [PyStr.lit "PUSH " ++ PyStr.lit "5", PyStr.lit "PUSH " ++ PyStr.lit "05"] := by decide
  have hwrites : WritesLines (PyStr.splitlines (PyStr.lit "PUSH 5\nPUSH 05"))
      [.push (.int 5), .push (.int 5)] := by
    rw [hlines]
    exact .cons (.push (.int (by decide) (by decide)) (pushLine _))
      (.cons (.push (.int (by decide) (by decide)) (pushLine _)) .nil)
  refine (operands_resolve_iff hwrites).mpr (Or.inr ⟨?_, by decide, by decide⟩)
  intro val hval
  have hint : val = .int 5 := by simpa using hval
  rw [hint]
  trivial

/-! ## More constants than an operand can tell apart -/

def letters (k : Nat) : PyStr := List.replicate k (.scalar 'a')

/-- The program that pushes `""`, `"a"`, `"aa"` and so on. -/
def growing (n : Nat) : List Instr := (List.range n).map fun k => .push (.str (letters k))

def growingSource (n : Nat) : PyStr :=
  PyStr.unlines ((List.range n).map fun k => PyStr.lit "PUSH " ++ quoted (letters k))

theorem mem_letters {k : Nat} {c : PyChar} (hc : c ∈ letters k) : c = .scalar 'a' :=
  List.eq_of_mem_replicate hc

theorem quotable_letters (k : Nat) : Quotable (letters k) := by
  constructor
  · intro c hc
    rw [mem_letters hc]
    decide
  · intro he
    have hcolon : PyChar.scalar ':' ∈ letters k := by
      rw [he]
      decide
    exact absurd (mem_letters hcolon) (by decide)

theorem nodup_letters (n : Nat) :
    ((List.range n).map fun k => Literal.str (letters k)).Nodup := by
  refine List.nodup_range.map fun j k he => ?_
  have hlen := congrArg List.length (Literal.str.inj he)
  simpa [letters] using hlen

theorem pushLine_letters (k : Nat) :
    ∀ c ∈ PyStr.lit "PUSH " ++ quoted (letters k), c.isLineBreak = false := by
  have hpush : ∀ c ∈ PyStr.lit "PUSH ", c.isLineBreak = false := by decide
  intro c hc
  simp only [quoted, List.mem_append, List.mem_cons, List.not_mem_nil, or_false] at hc
  rcases hc with hc | rfl | hc | rfl
  · exact hpush c hc
  · decide
  · rw [mem_letters hc]
    decide
  · decide

theorem growing_writes (n : Nat) :
    WritesLines (PyStr.splitlines (growingSource n)) (growing n) := by
  rw [growingSource, PyStr.splitlines_unlines]
  · unfold growing
    induction List.range n with
    | nil => exact .nil
    | cons k ks ih =>
      refine .cons (.push (.str fun hquote => ?_) (pushLine _)) ih
      exact absurd (mem_letters hquote) (by decide)
  · intro line hmem
    obtain ⟨k, -, rfl⟩ := List.mem_map.mp hmem
    exact pushLine_letters k

theorem pushed_growing (n : Nat) :
    pushed (growing n) = (List.range n).map fun k => .str (letters k) := by
  rw [pushed, growing, List.map_map, List.flatMap_map]
  exact List.map_eq_flatMap.symm

theorem growing_unresolved {n : Nat} (hn : 65536 < n) :
    ¬ OperandsResolve (growingSource n) (growing n) := by
  intro hresolve
  have hwrites := growing_writes n
  have hplain : ∀ val, .push val ∈ growing n → val.Plain := by
    intro val hval
    obtain ⟨k, -, hk⟩ := List.mem_map.mp hval
    cases hk
    exact quotable_letters k
  have hcount := ((narrow_iff hwrites).mp fun i hi => by
    obtain ⟨k, hk⟩ := List.mem_iff_getElem?.mp hi
    exact (resolved_iff hwrites hk).mp (hresolve _ (hwrites.compile hplain) k i hk)).1
  rw [pushed_growing, (nodup_letters n).dedup, List.length_map, List.length_range] at hcount
  omega

/-- With `65537` constants one operand is not the index of its literal. -/
theorem operand_wraps : WritesLines (PyStr.splitlines (growingSource 65537)) (growing 65537) ∧
    ¬ OperandsResolve (growingSource 65537) (growing 65537) :=
  ⟨growing_writes 65537, growing_unresolved (by omega)⟩

end PythonPortfolio.Ouroboros
