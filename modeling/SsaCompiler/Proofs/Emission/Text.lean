import SsaCompiler.Proofs.Emission.Labels

/-!
# The lines of a text

The text of a function is read line by line, and an instruction is a line
indented by two spaces. Other lines begin with a period or with a name, and
the name of a function may be any string: **one that begins with two spaces
makes the line of the function's symbol look like an instruction**, and one
with a line break makes several lines of one. Otherwise the instructions of
a function are counted by the indented lines of its text
(`Function.indentedLines_render`).
-/

namespace SsaCompiler

open List SsaCompiler.Except Instr String

variable {s : Schedule} {code : List Asm}

/-- The lines of a text. What follows the last line break counts as a line. -/
def textLines (text : String) : List (List Char) :=
  text.toList.splitOn '\n'

/-- A line that begins with two spaces. -/
def isIndented (line : List Char) : Bool :=
  [' ', ' '].isPrefixOf line

/-- **The number of lines indented by two spaces.** -/
def indentedLines (text : String) : Nat :=
  (textLines text).countP isIndented

/-! ## Texts without a line break -/

/-- A text without a line break. -/
def OneLine (s : String) : Prop :=
  '\n' ∉ s.toList

instance (s : String) : Decidable (OneLine s) :=
  inferInstanceAs (Decidable ('\n' ∉ s.toList))

theorem oneLine_append {s t : String} : OneLine (s ++ t) ↔ OneLine s ∧ OneLine t := by
  simp [OneLine]

theorem oneLine_natText (n : Nat) : OneLine (toString n) :=
  fun h => absurd (LocalName.isDigit_of_mem_toString h) (by decide)

theorem oneLine_intText (n : Int) : OneLine (toString n) := by
  cases n with
  | ofNat m => exact oneLine_natText m
  | negSucc m => exact oneLine_append.2 ⟨by decide, oneLine_natText (m + 1)⟩

theorem textLines_append (s t : String) : textLines (s ++ "\n" ++ t) = textLines s ++ textLines t := by
  have split : (s ++ "\n" ++ t).toList = s.toList ++ '\n' :: t.toList := by simp
  rw [textLines, split, splitOn_append_cons_self]
  rfl

theorem textLines_join (texts : List String) :
    textLines (String.join (texts.map (· ++ "\n"))) = texts.flatMap textLines ++ [[]] := by
  induction texts with
  | nil => rfl
  | cons s texts ih =>
    rw [map_cons, String.join_cons, textLines_append, ih, flatMap_cons, List.append_assoc]

/-- A text is taken apart into the lines it was made of. -/
theorem flatMap_textLines {texts : List String} (h : ∀ s ∈ texts, OneLine s) :
    texts.flatMap textLines = texts.map toList := by
  rw [map_eq_flatMap]
  exact flatMap_congr fun s hs => splitOn_eq_singleton (h s hs)

theorem Register.oneLine_name32 (r : Register) : OneLine r.name32 := by
  cases r <;> decide

theorem Register.oneLine_name64 (r : Register) : OneLine r.name64 := by
  cases r <;> decide

theorem Location.oneLine_text (l : Location) : OneLine l.text := by
  cases l with
  | reg r => exact r.oneLine_name32
  | stack offset => exact oneLine_append.2 ⟨oneLine_intText offset, by decide⟩

theorem Operand.oneLine_text (o : Operand) : OneLine o.text := by
  cases o with
  | imm value => exact oneLine_append.2 ⟨by decide, oneLine_intText value⟩
  | loc place => exact place.oneLine_text

/-- The text of a local label is on one line if the name of the function
is. -/
theorem LocalName.oneLine_text {function : String} (h : OneLine function) {l : LocalName}
    (hl : l.Known) : OneLine (l.text function) := by
  have known : ∀ role ∈ bodyRoles, OneLine role := by
    intro role hr
    simp only [bodyRoles, mem_cons, not_mem_nil, or_false] at hr
    rcases hr with rfl | rfl | rfl | rfl | rfl | rfl | rfl <;> decide
  cases l with
  | block role earlier =>
    rw [text]
    split
    · show OneLine ((function ++ "_") ++ role)
      simpa only [oneLine_append, h, true_and] using ⟨by decide, known role hl⟩
    · show OneLine ((((function ++ "_") ++ role) ++ "_") ++ toString earlier)
      simp only [oneLine_append, h, known role hl, oneLine_natText, true_and]
      decide
  | yes n =>
    show OneLine (((function ++ "_cmp") ++ toString n) ++ "_true")
    simp only [oneLine_append, h, oneLine_natText, true_and]
    decide
  | done n =>
    show OneLine (((function ++ "_cmp") ++ toString n) ++ "_end")
    simp only [oneLine_append, h, oneLine_natText, true_and]
    decide

/-! ## Lines of assembly -/

/-- **The instructions of a body**: all but those that enter it or the
operating system. -/
def Instr.isInner : Instr → Bool
  | call _ | movqImm _ _ | syscall => false
  | _ => true

theorem Instr.oneLine_mnemonic (i : Instr) : OneLine i.mnemonic := by
  cases i with
  | alu op _ _ => cases op <;> (rw [mnemonic, AluOp.mnemonic]; decide)
  | shift op _ => cases op <;> (rw [mnemonic, ShiftOp.mnemonic]; decide)
  | jcc condition _ => cases condition <;> (rw [mnemonic, Condition.mnemonic]; decide)
  | _ => rw [mnemonic]; decide

/-- An instruction of a body is on one line, if the label is that it jumps
to. -/
theorem Instr.oneLine_text {i : Instr} (hi : i.isInner)
    (htarget : ∀ label, i.target? = some label → OneLine label) : OneLine i.text := by
  have one : ∀ {s : String}, OneLine s → OneLine (i.mnemonic ++ " " ++ ", ".intercalate [s]) := by
    intro s hs
    exact oneLine_append.2 ⟨oneLine_append.2 ⟨i.oneLine_mnemonic, by decide⟩, hs⟩
  have two : ∀ {s t : String}, OneLine s → OneLine t →
      OneLine (i.mnemonic ++ " " ++ ", ".intercalate [s, t]) := by
    intro s t hs ht
    rw [String.intercalate_cons_cons, String.intercalate_singleton]
    simp only [oneLine_append, hs, ht, i.oneLine_mnemonic, true_and]
    decide
  have goes : ∀ {label : String}, i.target? = some label → OneLine (localLabel label) :=
    fun h => oneLine_append.2 ⟨by decide, htarget _ h⟩
  cases i with
  | call _ | movqImm _ _ | syscall => exact absurd hi (by simp [isInner])
  | ret => exact (by decide : OneLine "ret")
  | cltd => exact (by decide : OneLine "cltd")
  | push r | pop r => exact one r.oneLine_name64
  | movq src dst => exact two src.oneLine_name64 dst.oneLine_name64
  | subq bytes dst =>
    refine two ?_ dst.oneLine_name64
    exact oneLine_append.2 ⟨by decide, oneLine_natText bytes⟩
  | movl src dst | alu op src dst | cmpl src dst => exact two src.oneLine_text dst.oneLine_text
  | shift op dst => exact two (by decide) dst.oneLine_text
  | idivl divisor => exact one divisor.oneLine_text
  | jmp label | jcc condition label => exact one (goes rfl)

namespace Asm

/-- The text of a line without its end. -/
def content : Asm → String
  | instr i => "  " ++ i.text
  | label name => localLabel name ++ ":"
  | symbol name => name ++ ":"
  | globl name => ".global " ++ name
  | blank => ""

theorem text_eq_content (a : Asm) : a.text = a.content ++ "\n" := by
  cases a with
  | label name =>
    show localLabel name ++ (":" ++ "\n") = (localLabel name ++ ":") ++ "\n"
    exact append_assoc.symm
  | symbol name =>
    show name ++ (":" ++ "\n") = (name ++ ":") ++ "\n"
    exact append_assoc.symm
  | instr _ | globl _ | blank => rfl

theorem textLines_render (h : ∀ a ∈ code, OneLine a.content) :
    textLines (render code) = code.map (fun a => a.content.toList) ++ [[]] := by
  have ht : code.map text = (code.map content).map (· ++ "\n") := by
    rw [List.map_map]
    exact map_congr_left fun a _ => a.text_eq_content
  rw [render, ht, textLines_join, flatMap_textLines (forall_mem_map.2 h), List.map_map]
  rfl

/-- Whether a line is the symbol of a function that looks indented. -/
def isIndentedSymbol : Asm → Bool
  | symbol name => isIndented name.toList
  | _ => false

/-- **What looks indented** are instructions, and symbols that begin with two
spaces. -/
theorem isIndented_content (a : Asm) :
    isIndented a.content.toList ↔ (∃ i, a = instr i) ∨ a.isIndentedSymbol := by
  cases a with
  | instr i => simp [content, isIndented]
  | label name =>
    have : (label name).content.toList = '.' :: 'L' :: (name ++ ":").toList := by
      show ((".L" ++ name) ++ ":").toList = _
      simp
    simp [this, isIndented, isIndentedSymbol]
  | symbol name =>
    -- the colon behind the name is no space
    simp only [content, isIndentedSymbol, isIndented, toList_append, reduceCtorEq]
    rcases name.toList with _ | ⟨c, _ | ⟨d, rest⟩⟩ <;> simp [List.isPrefixOf]
  | globl name | blank => simp [content, isIndented, isIndentedSymbol]

/-- The indented lines of a text are counted by its instructions and
indented symbols. -/
theorem indentedLines_render (h : ∀ a ∈ code, OneLine a.content) :
    indentedLines (render code) = (instructions code).length + code.countP isIndentedSymbol := by
  rw [indentedLines, textLines_render h, countP_append, countP_map]
  have last : [([] : List Char)].countP isIndented = 0 := rfl
  rw [last, Nat.add_zero]
  clear h last
  induction code with
  | nil => rfl
  | cons a code ih =>
    rw [countP_cons, countP_cons, ih, Function.comp_apply]
    have look := isIndented_content a
    cases a with
    | instr i =>
      rw [if_pos (look.2 (.inl ⟨i, rfl⟩))]
      exact Nat.add_right_comm _ _ _
    | symbol name =>
      have same : isIndented (symbol name).content.toList = isIndentedSymbol (symbol name) :=
        Bool.eq_iff_iff.2 (look.trans (by simp))
      rw [same]
      exact Nat.add_assoc _ _ _
    | label name | globl name | blank => simp [look, instructions, isIndentedSymbol]

/-- The lines of a body: instructions and local labels. -/
def isInner : Asm → Bool
  | instr i => i.isInner
  | label _ => true
  | _ => false

end Asm

/-! ## The code of items -/

namespace Instr

theorem isInner_copy (src dst : Location) : ∀ i ∈ copy src dst, i.isInner := by
  unfold copy
  split
  · simp
  · split <;> simp [isInner]

theorem isInner_load (src : Location) : ∀ i ∈ (load src).1, i.isInner := by
  unfold load
  split
  · exact isInner_copy _ _
  · simp

theorem isInner_binary (op : BinOp) (lhs rhs target : Location) :
    ∀ i ∈ binary op lhs rhs target, i.isInner := by
  have ha : ∀ op, ∀ i ∈ arithmetic op lhs rhs target, i.isInner = true := fun op => by
    simp only [arithmetic, forall_mem_append, forall_mem_singleton]
    exact ⟨⟨⟨isInner_load _, isInner_copy _ _⟩, rfl⟩, isInner_copy _ _⟩
  have hs : ∀ op, ∀ i ∈ shifting op lhs rhs target, i.isInner = true := fun op => by
    simp only [shifting, forall_mem_append, forall_mem_singleton]
    exact ⟨⟨⟨isInner_copy _ _, isInner_copy _ _⟩, rfl⟩, isInner_copy _ _⟩
  have hd : ∀ result, ∀ i ∈ division result lhs rhs target, i.isInner = true := fun r => by
    simp only [division, forall_mem_append]
    exact ⟨⟨⟨⟨isInner_load _, by simp [isInner]⟩, isInner_copy _ _⟩, by simp [isInner]⟩,
      isInner_copy _ _⟩
  rcases op with op | op <;> cases op <;>
    first | exact ha _ | exact hs _ | exact hd _

end Instr

namespace Placed

variable {p : Placed} {n : NodeId} {code : List Asm}

/-- **The code of an item** consists of instructions of a body and local
labels. -/
theorem isInner_item {item : Item} (h : p.item s item = .ok code) : ∀ a ∈ code, a.isInner := by
  cases writes_of_item h with
  | phiMoves moves =>
    exact forall_mem_map.2 (forall_mem_flatMap.2 fun m _ => isInner_copy _ _)
  | compare hk =>
    refine forall_mem_append.2 ⟨forall_mem_map.2 (isInner_load _), ?_⟩
    simp [comparison, Instr.const, Asm.isInner, Instr.isInner]
  | binary hk => exact forall_mem_map.2 (isInner_binary _ _ _ _)
  | ret hk =>
    refine forall_mem_map.2 (forall_mem_append.2 ⟨isInner_copy _ _, ?_⟩)
    simp [Instr.epilogue, Asm.isInner, Instr.isInner]
  | constInt hk | constBool hk | undefined hk | jump hk | condJump hk =>
    simp [Instr.const, Asm.isInner, Instr.isInner]

/-- **The code of a function is its header and lines of a body.** -/
theorem exists_inner (h : p.function s = .ok code) :
    ∃ inner, code = header p.graph.name ++ inner ∧ ∀ a ∈ inner, a.isInner := by
  obtain ⟨hi, rfl⟩ := function_eq_ok h
  refine ⟨p.prologue ++ s.blocks.flatMap (p.blockCode s), append_assoc _ _ _, ?_⟩
  refine forall_mem_append.2 ⟨?_, forall_mem_flatMap.2 fun b hb => ?_⟩
  · rw [prologue, forall_mem_map, forall_mem_append]
    refine ⟨by simp [Asm.isInner, Instr.isInner], ?_⟩
    split <;> simp [Asm.isInner, Instr.isInner]
  · refine forall_mem_append.2 ⟨?_, forall_mem_flatMap.2 fun item hitem => ?_⟩
    · unfold blockLabel
      split <;> simp [Asm.isInner]
    · exact isInner_item (hi item (mem_flatMap.2 ⟨b, hb, hitem⟩))

end Placed

namespace Function

variable {registers : List Register} {f : Function} {code : List Asm}

section

variable (h : f.code registers = .ok code)

include h

theorem exists_inner : ∃ inner, code = Placed.header f.name ++ inner ∧ ∀ a ∈ inner, a.isInner := by
  obtain ⟨st, flow, r, hr⟩ := f.exists_translated
  obtain ⟨r', hr', h⟩ := bind_eq_ok.1 h
  cases hr.toGraph.symm.trans (mapError_eq_ok.1 hr')
  obtain ⟨s, -, h⟩ := bind_eq_ok.1 h
  obtain ⟨numbering, -, h⟩ := bind_eq_ok.1 h
  obtain ⟨lines, -, h⟩ := bind_eq_ok.1 h
  obtain ⟨inner, hc, hi⟩ := Placed.exists_inner (mapError_eq_ok.1 h)
  exact ⟨inner, by rw [hc, hr.name_eq], hi⟩

/-- A function has instructions: its entry point calls the body. -/
theorem length_instructions_pos : 0 < (Asm.instructions code).length := by
  obtain ⟨inner, rfl, -⟩ := exists_inner h
  simp [Placed.header, Asm.instructions]

/-- With a name on one line, every line of the code is one line of text. -/
theorem oneLine_content (hn : OneLine f.name) : ∀ a ∈ code, OneLine a.content := by
  obtain ⟨⟨names, hp, -, hk⟩, hj⟩ := Function.exists_names h
  have hlabels : ∀ label ∈ Asm.labels code, OneLine label := by
    intro label hlabel
    obtain ⟨l, hl, rfl⟩ := mem_map.1 (hp.mem_iff.1 hlabel)
    exact l.oneLine_text hn (hk l hl)
  obtain ⟨inner, hc, hi⟩ := exists_inner h
  intro a ha
  rw [hc] at ha
  rcases mem_append.1 ha with hh | hmem
  · have body : OneLine ("_" ++ f.name) := oneLine_append.2 ⟨by decide, hn⟩
    simp only [Placed.header, mem_cons, not_mem_nil, or_false] at hh
    rcases hh with rfl | rfl | rfl | rfl | rfl | rfl | rfl | rfl | rfl | rfl
    · exact oneLine_append.2 ⟨by decide, hn⟩
    · exact oneLine_append.2 ⟨by decide, body⟩
    · exact (by decide : OneLine "")
    · exact oneLine_append.2 ⟨hn, by decide⟩
    · exact oneLine_append.2 ⟨by decide, oneLine_append.2 ⟨(by decide : OneLine "call "), body⟩⟩
    · exact (by decide : OneLine "  movq %rax, %rdi")
    · exact (by decide : OneLine "  movq $0x3C, %rax")
    · exact (by decide : OneLine "  syscall")
    · exact (by decide : OneLine "")
    · exact oneLine_append.2 ⟨body, by decide⟩
  · rw [← hc] at ha
    have hin := hi a hmem
    cases a with
    | instr i =>
      refine oneLine_append.2 ⟨by decide, oneLine_text hin fun label hl => ?_⟩
      exact hlabels label (hj label (mem_filterMap.2 ⟨_, ha, hl⟩))
    | label name =>
      have hlabel : name ∈ Asm.labels code := mem_filterMap.2 ⟨_, ha, rfl⟩
      exact oneLine_append.2 ⟨oneLine_append.2 ⟨by decide, hlabels name hlabel⟩, by decide⟩
    | symbol name | globl name | blank => exact absurd hin (by simp [Asm.isInner])

/-- **The indented lines of a function's text** are its instructions, and the
line of its symbol if its name begins with two spaces. -/
theorem indentedLines_render (hn : OneLine f.name) : indentedLines (Asm.render code)
      = (Asm.instructions code).length + if isIndented f.name.toList then 1 else 0 := by
  rw [Asm.indentedLines_render (oneLine_content h hn)]
  obtain ⟨inner, rfl, hi⟩ := exists_inner h
  have none : inner.countP Asm.isIndentedSymbol = 0 := by
    refine countP_eq_zero.2 fun a ha hsymbol => ?_
    have := hi a ha
    cases a with
    | symbol name => exact absurd this (by simp [Asm.isInner])
    | _ => exact absurd hsymbol (by simp [Asm.isIndentedSymbol])
  -- the symbol of the body begins with an underscore
  have body : isIndented ('_' :: f.name.toList) = false := rfl
  have underscore : (toString "_" ++ toString f.name).toList = '_' :: f.name.toList :=
    toList_append
  rw [countP_append, none, Placed.header]
  simp only [countP_cons, Asm.isIndentedSymbol, underscore, body]
  by_cases hs : isIndented f.name.toList = true <;> simp [hs]

end

end Function

end SsaCompiler
