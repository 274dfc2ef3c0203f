import SsaCompiler.Proofs.Emission.Text
import SsaCompiler.Proofs.Program.Merges
import SsaCompiler.Proofs.Program.Success

/-!
# What a drawing shows

A drawing has every node that the returns of a function depend on. Control comes
from every laid-out block to a return, so the end of every laid-out block is among
them. Hence **what is drawn is what is scheduled**, and the end block besides
(`Function.drawing_shows_schedule`).

In the text of a drawing, a line that draws a node or an edge tells so by the way it
starts (`drawsNode`, `drawsEdge`). The name of a function stands there as it is. If it
has no quotation mark and no line break, **the lines are those of the statements**, so
nodes are drawn once and edges run between them; but any other name may put statements
of its own into the text (`Function.forged_drawing`).
-/

namespace SsaCompiler

open List Graph
open Graph (startBlock endBlock)

variable {g : Graph} {n m block t : NodeId}

/-! ## Lines of a drawing -/

/-- A text that can stand between quotation marks, on a line with others. -/
def Quotable (s : String) : Prop :=
  '"' ∉ s.toList ∧ '\n' ∉ s.toList

instance (s : String) : Decidable (Quotable s) :=
  inferInstanceAs (Decidable (_ ∧ _))

/-- **A line that draws a node.** -/
def drawsNode (n : NodeId) (line : List Char) : Bool :=
  ("  " ++ NodeId.text n ++ " [").toList.isPrefixOf line

/-- **A line that draws an edge** from one node to another. -/
def drawsEdge (n m : NodeId) (line : List Char) : Bool :=
  ("  " ++ NodeId.text n ++ " -> " ++ NodeId.text m ++ " [").toList.isPrefixOf line

theorem NodeId.toList_text (n : NodeId) : n.text.toList = 'n' :: (toString n).toList :=
  String.toList_append

/-- The digits of a number end where the first blank stands. -/
theorem digits_prefix {k l : Nat} {front rest : List Char} :
    (toString k).toList ++ ' ' :: front <+: (toString l).toList ++ ' ' :: rest ↔
      k = l ∧ front <+: rest := by
  refine ⟨fun ⟨tail, h⟩ => ?_, fun ⟨hkl, h⟩ => ?_⟩
  · rw [append_assoc, cons_append] at h
    have hd := congrArg (List.takeWhile Char.isDigit) h
    rw [takeWhile_append_of_pos fun _ => LocalName.isDigit_of_mem_toString,
      takeWhile_append_of_pos fun _ => LocalName.isDigit_of_mem_toString,
      takeWhile_cons_of_neg (by decide), takeWhile_cons_of_neg (by decide),
      append_nil, append_nil] at hd
    obtain rfl := toString_injective (String.toList_inj.1 hd)
    exact ⟨rfl, tail, (List.cons.inj (append_cancel_left h)).2⟩
  · subst hkl
    exact (prefix_append_right_inj _).2 (cons_prefix_cons.2 ⟨rfl, h⟩)

namespace DotStatement

/-- The two ends of an edge. -/
def ends : DotStatement → List NodeId
  | vertex _ _ => []
  | operand n source _ => [source, n]
  | owner n block => [n, block]

/-- The line of a statement without its end. -/
def content : DotStatement → String
  | vertex n kind =>
    "  " ++ NodeId.text n ++ " [label=\"" ++ NodeId.text n ++ ": " ++ kind.text ++ "\", shape="
      ++ shape kind ++ "];"
  | operand n source index =>
    "  " ++ NodeId.text source ++ " -> " ++ NodeId.text n ++ " [label=\"" ++ toString index
      ++ "\"];"
  | owner n block =>
    "  " ++ NodeId.text n ++ " -> " ++ NodeId.text block ++ " [style=dotted, arrowhead=none];"

theorem text_eq_content (st : DotStatement) : st.text = st.content ++ "\n" := by
  cases st <;> simp only [text, content, String.append_assoc, String.reduceAppend, toString]

theorem toList_content_vertex (n : NodeId) (kind : Kind) : ∃ rest, (vertex n kind).content.toList =
      ' ' :: ' ' :: 'n' :: ((toString n).toList ++ ' ' :: '[' :: rest) := by
  simp only [content, String.toList_append, NodeId.toList_text, append_assoc, cons_append]
  exact ⟨_, rfl⟩

/-- How the line of an edge starts. -/
theorem toList_content_edge {st : DotStatement} (h : st.ends = [n, m]) :
    ∃ rest, st.content.toList = ' ' :: ' ' :: 'n' :: ((toString n).toList ++
      ' ' :: '-' :: '>' :: ' ' :: 'n' :: ((toString m).toList ++ ' ' :: '[' :: rest)) := by
  cases st with
  | vertex => cases h
  | operand | owner =>
    cases h
    simp only [content, String.toList_append, NodeId.toList_text, append_assoc, cons_append]
    exact ⟨_, rfl⟩

end DotStatement

theorem drawsNode_iff {line : List Char} : drawsNode n line ↔
    ' ' :: ' ' :: 'n' :: ((toString n).toList ++ [' ', '[']) <+: line := by
  rw [drawsNode, isPrefixOf_iff_prefix]
  simp only [String.toList_append, NodeId.toList_text, append_assoc, cons_append]
  exact Iff.rfl

/-- How lines that draw something start. -/
def Starts (line : List Char) : Prop :=
  ∃ c rest, line = ' ' :: ' ' :: 'n' :: c :: rest ∧ (c = ' ' ∨ c.isDigit)

theorem starts_of_prefix {k : Nat} {front line : List Char}
    (h : ' ' :: ' ' :: 'n' :: ((toString k).toList ++ ' ' :: front) <+: line) : Starts line := by
  obtain ⟨tail, rfl⟩ := h
  cases hk : (toString k).toList with
  | nil => exact ⟨_, _, rfl, .inl rfl⟩
  | cons d ds => exact ⟨d, _, rfl, .inr (LocalName.isDigit_of_mem_toString (hk ▸ Mem.head _))⟩

theorem drawsEdge_iff {line : List Char} : drawsEdge n m line ↔
    ' ' :: ' ' :: 'n' :: ((toString n).toList ++
      ' ' :: '-' :: '>' :: ' ' :: 'n' :: ((toString m).toList ++ [' ', '['])) <+: line := by
  rw [drawsEdge, isPrefixOf_iff_prefix]
  simp only [String.toList_append, NodeId.toList_text, append_assoc, cons_append]
  exact Iff.rfl

theorem DotStatement.cases (st : DotStatement) :
    (∃ n kind, st = vertex n kind) ∨ ∃ n m, st.ends = [n, m] := by
  cases st with
  | vertex n kind => exact .inl ⟨n, kind, rfl⟩
  | operand | owner => exact .inr ⟨_, _, rfl⟩

variable {st : DotStatement}

/-- **The statements that draw a node.** -/
theorem drawsNode_content : drawsNode n st.content.toList ↔ ∃ kind, st = .vertex n kind := by
  rw [drawsNode_iff]
  rcases st.cases with ⟨k, kind, rfl⟩ | ⟨k, l, he⟩
  · obtain ⟨rest, hl⟩ := DotStatement.toList_content_vertex k kind
    rw [hl]
    simp only [cons_prefix_cons, digits_prefix, nil_prefix, true_and, and_true]
    exact ⟨fun h => ⟨kind, by rw [h]⟩, fun ⟨_, h⟩ => by cases h; rfl⟩
  · obtain ⟨rest, hl⟩ := DotStatement.toList_content_edge he
    rw [hl]
    simp only [cons_prefix_cons, digits_prefix, Char.reduceEq, false_and, and_false, false_iff]
    rintro ⟨kind, rfl⟩
    cases he

/-- **The statements that draw an edge.** -/
theorem drawsEdge_content : drawsEdge n m st.content.toList ↔ st.ends = [n, m] := by
  rw [drawsEdge_iff]
  rcases st.cases with ⟨k, kind, rfl⟩ | ⟨k, l, he⟩
  · obtain ⟨rest, hl⟩ := DotStatement.toList_content_vertex k kind
    rw [hl]
    simp only [cons_prefix_cons, digits_prefix, Char.reduceEq, false_and, and_false, false_iff]
    nofun
  · obtain ⟨rest, hl⟩ := DotStatement.toList_content_edge he
    rw [hl, he]
    simp only [cons_prefix_cons, digits_prefix, nil_prefix, true_and, and_true, List.cons.injEq]
    exact and_congr eq_comm eq_comm

/-! ## The text of a drawing -/

variable {c : Char}

theorem not_mem_natText (hc : c = '"' ∨ c = '\n') (k : Nat) : c ∉ (toString k).toList := fun h => by
  have hd := LocalName.isDigit_of_mem_toString h
  rcases hc with rfl | rfl <;> exact absurd hd (by decide)

/-- The text of a kind is quotable if its label is. -/
theorem Kind.not_mem_text (hc : c = '"' ∨ c = '\n') {k : Kind}
    (hl : ∀ label, k = .block label → c ∉ label.toList) : c ∉ k.text.toList := by
  cases k with
  | block label =>
    have hw : c ∉ "Block ".toList := by rcases hc with rfl | rfl <;> decide
    show c ∉ ("Block " ++ label).toList
    rw [String.toList_append, mem_append]
    exact not_or.2 ⟨hw, hl label rfl⟩
  | constInt value =>
    have hw : c ∉ "Const ".toList := by rcases hc with rfl | rfl <;> decide
    show c ∉ ("Const " ++ toString value.toInt).toList
    rw [String.toList_append, mem_append]
    refine not_or.2 ⟨hw, ?_⟩
    cases value.toInt with
    | ofNat k => exact not_mem_natText hc k
    | negSucc k =>
      have hm : c ∉ "-".toList := by rcases hc with rfl | rfl <;> decide
      show c ∉ ("-" ++ toString (k + 1)).toList
      rw [String.toList_append, mem_append]
      exact not_or.2 ⟨hm, not_mem_natText hc (k + 1)⟩
  | constBool value => cases value <;> rcases hc with rfl | rfl <;> decide
  | phi channel | proj channel => cases channel <;> rcases hc with rfl | rfl <;> decide
  | binary op => cases op with
    | arith op | logic op => cases op <;> rcases hc with rfl | rfl <;> decide
  | compare op => cases op <;> rcases hc with rfl | rfl <;> decide
  | jump => exact (by rcases hc with rfl | rfl <;> decide : c ∉ "Jump".toList)
  | condJump => exact (by rcases hc with rfl | rfl <;> decide : c ∉ "CondJump".toList)
  | _ => rcases hc with rfl | rfl <;> decide

namespace DotStatement

/-- **A statement has one line, and a quotation on it ends there.** -/
theorem count_content (hst : ∀ n kind, st = vertex n kind → Quotable kind.text) :
    st.content.toList.count '\n' = 0 ∧
      (st.content.toList.count '"' = 0 ∨ st.content.toList.count '"' = 2) := by
  have hn : ∀ {c}, c = '"' ∨ c = '\n' → ∀ k : Nat, (toString k).toList.count c = 0 :=
    fun hc k => count_eq_zero.2 (not_mem_natText hc k)
  have hid : ∀ {c}, c = '"' ∨ c = '\n' → ∀ n, (NodeId.text n).toList.count c = 0 := fun hc n => by
    rw [NodeId.toList_text, count_cons, hn hc]
    rcases hc with rfl | rfl <;> rfl
  cases st with
  | vertex n kind =>
    have hs : ∀ {c}, c = '"' ∨ c = '\n' → (shape kind).toList.count c = 0 := fun hc => by
      unfold shape
      split <;> rcases hc with rfl | rfl <;> rfl
    obtain ⟨hq, hb⟩ := hst n kind rfl
    simp only [content, String.toList_append, count_append, hid (.inl rfl), hid (.inr rfl),
      hs (.inl rfl), hs (.inr rfl), count_eq_zero.2 hq, count_eq_zero.2 hb]
    exact ⟨rfl, .inr rfl⟩
  | operand n source index =>
    simp only [content, String.toList_append, count_append, hid (.inl rfl), hid (.inr rfl),
      hn (.inl rfl), hn (.inr rfl)]
    exact ⟨rfl, .inr rfl⟩
  | owner n block =>
    simp only [content, String.toList_append, count_append, hid (.inl rfl), hid (.inr rfl)]
    exact ⟨rfl, .inl rfl⟩

theorem textLines_content (hst : ∀ n kind, st = vertex n kind → Quotable kind.text) :
    textLines st.content = [st.content.toList] :=
  splitOn_eq_singleton (count_eq_zero.1 (count_content hst).1)

end DotStatement

namespace Graph

theorem ends_of_mem_dotEdges (hst : st ∈ g.dotEdges n) : ∃ k m, st.ends = [k, m] := by
  rcases mem_append.1 hst with hst | hst
  · obtain ⟨_, -, rfl⟩ := mem_map.1 hst
    exact ⟨_, _, rfl⟩
  · split at hst
    · cases hst
    · rw [mem_singleton.1 hst]
      exact ⟨_, _, rfl⟩

theorem mem_ends_dotEdges (hst : st ∈ g.dotEdges n) (hm : m ∈ st.ends) :
    m = n ∨ m ∈ g.next n := by
  rcases mem_append.1 hst with hst | hst
  · obtain ⟨⟨source, index⟩, hmem, rfl⟩ := mem_map.1 hst
    rcases mem_pair.1 hm with rfl | rfl
    · exact .inr (mem_next (fst_mem_of_mem_zipIdx hmem))
    · exact .inl rfl
  · split at hst
    · cases hst
    · rw [mem_singleton.1 hst] at hm
      rcases mem_pair.1 hm with rfl | rfl
      · exact .inl rfl
      · exact .inr (by simp [next, *])

theorem vertex_mem_iff (g : Graph) {kind : Kind} :
    .vertex n kind ∈ g.dotStatements ↔ n ∈ g.reachable ∧ kind = g.kind n := by
  refine ⟨fun hmem => ?_, fun ⟨hn, he⟩ => he ▸ mem_append_left _ (mem_map_of_mem hn)⟩
  rcases mem_append.1 hmem with hmem | hmem
  · obtain ⟨m, hm, he⟩ := mem_map.1 hmem
    cases he
    exact ⟨hm, rfl⟩
  · obtain ⟨m, -, hmem⟩ := mem_flatMap.1 hmem
    obtain ⟨_, _, he⟩ := ends_of_mem_dotEdges hmem
    cases he

/-- **The lines of a drawing**: one for each statement, between two at the beginning and
one at the end. -/
def dotLines (g : Graph) : List String :=
  ["digraph \"" ++ g.name ++ "\" \x7b", "  node [fontname=\"monospace\"];"]
    ++ g.dotStatements.map DotStatement.content ++ ["\x7d"]

theorem dot_eq (g : Graph) : g.dot = String.join (g.dotLines.map (· ++ "\n")) := by
  have ht : g.dotStatements.map DotStatement.text =
      (g.dotStatements.map DotStatement.content).map (· ++ "\n") := by
    rw [map_map]
    exact map_congr_left fun st _ => st.text_eq_content
  rw [dot, ht, dotLines]
  simp only [map_append, map_cons, map_nil, String.join_append, String.join_cons, String.join_nil,
    String.append_assoc, String.append_empty, String.reduceAppend, toString]

theorem textLines_dot_eq (g : Graph) : textLines g.dot = g.dotLines.flatMap textLines ++ [[]] := by
  rw [dot_eq, textLines_join]

/-- **What draws something are statements**: the other lines of a drawing start in another
way. -/
theorem filter_starts_dotLines (g : Graph) (p : List Char → Bool)
    (hp : ∀ line, p line → Starts line) :
    (g.dotLines.map String.toList ++ [[]]).filter p =
      (g.dotStatements.map fun st => st.content.toList).filter p := by
  have hf : ¬ p ("digraph \"" ++ g.name ++ "\" \x7b").toList := fun h => by
    obtain ⟨c, rest, he, -⟩ := hp _ h
    rw [String.toList_append, String.toList_append] at he
    cases (List.cons.inj he).1
  have hfont : ¬ p "  node [fontname=\"monospace\"];".toList := fun h => by
    obtain ⟨c, rest, he, hc⟩ := hp _ h
    obtain rfl : 'o' = c :=
      (List.cons.inj (List.cons.inj (List.cons.inj (List.cons.inj he).2).2).2).1
    rcases hc with hc | hc <;> cases hc
  have hl : ¬ p "\x7d".toList := fun h => by
    obtain ⟨c, rest, he, -⟩ := hp _ h
    cases he
  have hnil : ¬ p [] := fun h => by
    obtain ⟨c, rest, he, -⟩ := hp _ h
    cases he
  simp only [dotLines, map_append, map_cons, map_nil, map_map, filter_append]
  rw [filter_cons_of_neg hf, filter_cons_of_neg hfont, filter_cons_of_neg hl,
    filter_cons_of_neg hnil, filter_nil, nil_append, append_nil, append_nil]
  rfl

/-- **All names in a graph can be quoted.** -/
def QuotableNames (g : Graph) : Prop :=
  Quotable g.name ∧ ∀ n label, g.kind n = .block label → Quotable label

section Lines

variable (h : g.QuotableNames)

include h

theorem count_dotLines {line : String} (hl : line ∈ g.dotLines) :
    line.toList.count '\n' = 0 ∧ (line.toList.count '"' = 0 ∨ line.toList.count '"' = 2) := by
  obtain ⟨⟨hq, hb⟩, hlabels⟩ := h
  have hk : ∀ n, Quotable (g.kind n).text := fun n =>
    ⟨Kind.not_mem_text (.inl rfl) fun label hlabel => (hlabels n label hlabel).1,
      Kind.not_mem_text (.inr rfl) fun label hlabel => (hlabels n label hlabel).2⟩
  simp only [dotLines, mem_append, mem_cons, not_mem_nil, or_false] at hl
  rcases hl with ((rfl | rfl) | hl) | rfl
  · simp only [String.toList_append, count_append, count_eq_zero.2 hq, count_eq_zero.2 hb]
    exact ⟨rfl, .inr rfl⟩
  · exact ⟨rfl, .inr rfl⟩
  · obtain ⟨st, hst, rfl⟩ := mem_map.1 hl
    refine st.count_content fun n kind he => ?_
    subst he
    rw [(g.vertex_mem_iff.1 hst).2]
    exact hk n
  · exact ⟨rfl, .inl rfl⟩

/-- The text of a drawing has these lines. -/
theorem textLines_dot : textLines g.dot = g.dotLines.map String.toList ++ [[]] := by
  rw [textLines_dot_eq, flatMap_textLines fun line hl => count_eq_zero.1 (count_dotLines h hl).1]

/-- **A node that is drawn has one line**, and others have none. -/
theorem countP_drawsNode (n : NodeId) :
    (textLines g.dot).countP (drawsNode n) = if n ∈ g.reachable then 1 else 0 := by
  have hv : (g.reachable.map fun k => DotStatement.vertex k (g.kind k)).countP
      (fun st => drawsNode n st.content.toList) = g.reachable.count n := by
    rw [countP_map]
    refine countP_congr fun k _ => ?_
    rw [Function.comp_apply, drawsNode_content, beq_iff_eq]
    exact ⟨fun ⟨_, he⟩ => (DotStatement.vertex.inj he).1, fun he => ⟨_, by rw [he]⟩⟩
  have hedges : (g.reachable.flatMap g.dotEdges).countP
      (fun st => drawsNode n st.content.toList) = 0 := by
    refine countP_eq_zero.2 fun st hst hd => ?_
    obtain ⟨k, -, hst⟩ := mem_flatMap.1 hst
    obtain ⟨_, rfl⟩ := drawsNode_content.1 hd
    obtain ⟨_, _, he⟩ := ends_of_mem_dotEdges hst
    cases he
  rw [textLines_dot h, countP_eq_length_filter, filter_starts_dotLines g _ fun _ hn =>
    starts_of_prefix (drawsNode_iff.1 hn), ← countP_eq_length_filter, countP_map, dotStatements,
    countP_append, Function.comp_def, hv, hedges]
  split
  · next hn => exact count_eq_one_of_mem (Walk.nodup_postorder _ _ _) hn
  · next hn => exact count_eq_zero.2 hn

end Lines

section Drawn

variable (h : g.Closed) (hend : endBlock < g.size)

include h hend

/-- What the end block leads to is drawn, and nothing else. -/
theorem mem_reachable_iff : n ∈ g.reachable ↔ Walk.Reach g.next endBlock n := by
  refine ⟨fun hn => ?_, Walk.mem_postorder_of_reach g.ids
    (fun x hx => h.next_subset (mem_range.1 hx)) (fun x hx => ?_)
    length_range.le (.head _)⟩
  · obtain ⟨r, hr, hreach⟩ := Walk.reach_of_mem_postorder hn
    exact mem_singleton.1 hr ▸ hreach
  · exact mem_range.2 (mem_singleton.1 hx ▸ hend)

/-- Both ends of every edge are drawn. -/
theorem mem_reachable_of_mem_ends (hst : st ∈ g.dotStatements) (hm : m ∈ st.ends) :
    m ∈ g.reachable := by
  rcases mem_append.1 hst with hst | hst
  · obtain ⟨n, -, rfl⟩ := mem_map.1 hst
    cases hm
  · obtain ⟨n, hn, hst⟩ := mem_flatMap.1 hst
    rcases mem_ends_dotEdges hst hm with rfl | hnext
    · exact hn
    · rw [mem_reachable_iff h hend] at hn ⊢
      exact hn.tail hnext

end Drawn

/-! ## Control and dependence -/

/-- Where control comes from, the graph leads to: from a block to the jumps into
it, and on to the blocks of these. -/
theorem reach_of_leads (h : g.Leads block t) : Walk.Reach g.next t block := by
  induction h using Relation.ReflTransGen.head_induction_on with
  | refl => exact .refl
  | head hedge _ ih =>
    obtain ⟨jump, hj, rfl⟩ := mem_map.1 hedge.2
    have hr := ih.tail (mem_next hj)
    by_cases he : g.blockOf jump = jump
    · exact he.symm ▸ hr
    · exact hr.tail (by simp [next, he])

end Graph

namespace Translated

variable {f : Function} {s : Stage} {flow : Flow} {r : FunctionGraph}

/-- **The end block leads to the end of every laid-out block**, if the function
returns. -/
theorem reach_terminator (h : Translated f s flow r) (hreturns : f.body.returns)
    (hb : block ∈ r.graph.layout) (ht : r.graph.terminator? block = some t) :
    Walk.Reach r.graph.next endBlock t := by
  have hr := h.regular
  obtain ⟨hi, hreaches, hne⟩ := hr.reaches_of_mem_layout hb
  obtain ⟨hterm, hh⟩ := terminator?_eq_some ht
  rw [h.isBlock_eq] at hi
  have hf := h.walks.flow_eq
  rw [hreturns] at hf
  have hl : r.graph.Leads block endBlock := by
    rcases h.walked.onward block (h.eq_startBlock_or hi hne) hi with
      ⟨hnil, hnot⟩ | ⟨goal, ⟨he, -⟩ | rfl, hl⟩
    · obtain ⟨path, hp, rfl⟩ := (h.reaches_iff hi).1 hreaches
      exact absurd (Path.visits_last path) (hp.not_visits hnil hnot)
    · cases hf.symm.trans he
    · refine Relation.ReflTransGen.mono (fun a b hab => ?_) _ _ hl
      exact ⟨(h.isBlock_eq b).trans hab.1, (h.preds_eq hab.1).symm ▸ hab.2⟩
  rcases Relation.ReflTransGen.cases_head hl with he | ⟨next, ⟨hn, hmem⟩, hrest⟩
  · exact absurd he hne
  · obtain ⟨jump, hj, he⟩ := mem_map.1 hmem
    obtain rfl := hr.single jump t (hr.jumps next hn jump hj) hterm
      (he.trans hh.symm)
    exact (reach_of_leads hrest).tail (mem_next hj)

/-- **What is drawn is what is scheduled**, and the end block. -/
theorem mem_reachable_iff_isScheduled {schedule : Schedule} {ends : List NodeId}
    (h : Translated f s flow r) (hreturns : f.body.returns) (hs : schedule.Built r.graph ends) :
    n ∈ r.graph.reachable ↔ schedule.isScheduled n ∨ n = endBlock := by
  have hc := h.complete
  have hf : (r.graph.kind endBlock).isBlock := (h.isBlock_eq _).trans h.wired.final
  have hend := Builder.lt_of_isBlock hf
  refine ⟨fun hn => ?_, ?_⟩
  · by_cases hne : n = endBlock
    · exact .inr hne
    · obtain ⟨t, hterm, hh, hr⟩ := hc.exists_end_of_mem_reachable hf hn hne
      have ht := (Schedule.mem_ends hs.terminators).2 ⟨_, hh, hc.terminator?_eq hterm⟩
      exact .inl ((hs.mem_scheduled hc.closed).1 (hs.mem_scheduled_of_reach hc ht hr))
  · rw [mem_reachable_iff hc.closed hend]
    rintro (hn | rfl)
    · obtain ⟨-, block, hb, t, ht, hr⟩ := (hs.isScheduled_iff hc.closed).1 hn
      exact (h.reach_terminator hreturns hb (terminator?_eq_some_iff.2 ht)).trans hr
    · exact .refl

end Translated

/-- **A drawing shows exactly what is compiled.** Where a function returns, what is
drawn of its graph are the nodes that are scheduled, and the end block. The text of a
drawing, if all names in the graph can be quoted, has a line for every statement, and no
quotation goes beyond its line. One line draws a node that the end block leads to, none
draws another node, and where a line draws an edge, both of its ends are drawn. -/
theorem Function.drawing_shows_schedule :
    (∀ f : Function, f.body.returns → ∃ r schedule, f.toGraph = .ok r ∧
      Schedule.build r.graph = .ok schedule ∧
        ∀ n, n ∈ r.graph.reachable ↔ schedule.isScheduled n ∨ n = endBlock) ∧
    ∀ g : Graph, g.Closed → endBlock < g.size → g.QuotableNames →
      (textLines g.dot = g.dotLines.map String.toList ++ [[]] ∧
        ∀ line ∈ textLines g.dot, line.count '"' = 0 ∨ line.count '"' = 2) ∧
      (∀ n, (textLines g.dot).countP (drawsNode n) = if n ∈ g.reachable then 1 else 0) ∧
      ∀ n m, ∀ line ∈ textLines g.dot, drawsEdge n m line →
        (textLines g.dot).countP (drawsNode n) = 1 ∧
          (textLines g.dot).countP (drawsNode m) = 1 := by
  refine ⟨fun f hreturns => ?_, fun g hclosed hend hnames => ?_⟩
  · obtain ⟨s, flow, r, h⟩ := f.exists_translated
    obtain ⟨schedule, ends, -, hbuild, hs, -⟩ := h.exists_lines hreturns
    exact ⟨r, schedule, h.toGraph, hbuild, fun n => h.mem_reachable_iff_isScheduled hreturns hs⟩
  · refine ⟨⟨textLines_dot hnames, fun line hline => ?_⟩, countP_drawsNode hnames,
      fun n m line hline hedge => ?_⟩
    · rw [textLines_dot hnames] at hline
      rcases mem_append.1 hline with hline | hline
      · obtain ⟨s, hs, rfl⟩ := mem_map.1 hline
        exact (count_dotLines hnames hs).2
      · rw [mem_singleton.1 hline]
        exact .inl rfl
    · have hmem := mem_filter.2 ⟨textLines_dot hnames ▸ hline, hedge⟩
      rw [filter_starts_dotLines g _ fun _ he => starts_of_prefix (drawsEdge_iff.1 he)] at hmem
      obtain ⟨st, hst, rfl⟩ := mem_map.1 (mem_filter.1 hmem).1
      have hends := drawsEdge_content.1 hedge
      rw [countP_drawsNode hnames, countP_drawsNode hnames,
        if_pos (mem_reachable_of_mem_ends hclosed hend hst (hends ▸ .head _)),
        if_pos (mem_reachable_of_mem_ends hclosed hend hst (hends ▸ .tail _ (.head _)))]
      exact ⟨rfl, rfl⟩

/-- A loop that is left by a return. -/
theorem Function.loop_drawing_shows_schedule :
    let loop : Function := ⟨"loop", .seq (.loop (.var "x") (.ret (.int 0))) (.ret (.var "x"))⟩
    ∃ r schedule, loop.toGraph = .ok r ∧ Schedule.build r.graph = .ok schedule ∧
      r.graph.QuotableNames ∧ ∀ n, (textLines r.graph.dot).countP (drawsNode n) =
        if schedule.isScheduled n ∨ n = endBlock then 1 else 0 := by
  intro loop
  obtain ⟨s, flow, r, h⟩ := loop.exists_translated
  obtain ⟨r', schedule, hr, hbuild, hmem⟩ := Function.drawing_shows_schedule.1 loop (by decide)
  obtain rfl : r = r' := Except.ok.inj (h.toGraph.symm.trans hr)
  have hnames : r.graph.QuotableNames := by
    have hlabels : loop.toGraph.toOption.any (fun r => decide (Quotable r.graph.name ∧
        ∀ n ∈ r.graph.ids, Quotable (r.graph.kind n).text)) = true := by
      decide +kernel
    rw [hr] at hlabels
    obtain ⟨hname, htexts⟩ := of_decide_eq_true hlabels
    refine ⟨hname, fun n label hlabel => ?_⟩
    have hblock : (r.graph.kind n).isBlock = true := by rw [hlabel]; rfl
    have htext := htexts n (mem_range.2 (Builder.lt_of_isBlock hblock))
    rw [hlabel, show (Kind.block label).text = "Block " ++ label from rfl] at htext
    rw [Quotable, String.toList_append, mem_append, mem_append, not_or, not_or] at htext
    exact ⟨htext.1.2, htext.2.2⟩
  have hfinal := (h.isBlock_eq _).trans h.wired.final
  refine ⟨r, schedule, hr, hbuild, hnames, fun n => ?_⟩
  rw [(Function.drawing_shows_schedule.2 r.graph h.complete.closed
    (Builder.lt_of_isBlock hfinal) hnames).2.1]
  exact if_congr (hmem n) rfl rfl

/-- A function whose name has a quotation mark and, on lines of their own, two
statements. -/
def Function.forged : Function :=
  ⟨"f\"" ++ "\n" ++ (DotStatement.vertex 4 (.constInt 0)).content ++ "\n"
    ++ (DotStatement.operand 99 4 0).content ++ "\n" ++ "\"", .ret (.int 0)⟩

/-- **A name with line breaks may forge statements**: node 4 has two lines, and an edge
leads to a node that is not drawn. -/
theorem Function.forged_drawing : forged.body.returns = true ∧
    ∃ r, forged.toGraph = .ok r ∧ 2 ≤ (textLines r.graph.dot).countP (drawsNode 4) ∧
      (∃ line ∈ textLines r.graph.dot, drawsEdge 4 99 line) ∧ 99 ∉ r.graph.reachable := by
  obtain ⟨s, flow, r, h⟩ := forged.exists_translated
  refine ⟨rfl, r, h.toGraph, ?_⟩
  have hgraph : forged.toGraph.toOption.any (fun r => decide
      (4 ∈ r.graph.reachable ∧ r.graph.kind 4 = .constInt 0 ∧ 99 ∉ r.graph.reachable)) = true := by
    decide +kernel
  rw [h.toGraph] at hgraph
  obtain ⟨hreachable, hkind, hnot⟩ := of_decide_eq_true hgraph
  have hconst : Quotable (Kind.constInt 0).text :=
    ⟨Kind.not_mem_text (.inl rfl) nofun, Kind.not_mem_text (.inr rfl) nofun⟩
  have hvertex := @DotStatement.textLines_content (.vertex 4 (.constInt 0)) fun n kind he => by
    cases he
    exact hconst
  have hedge := @DotStatement.textLines_content (.operand 99 4 0) nofun
  -- The name breaks the first line of the text at the ends of the two statements.
  have hfirst : textLines ("digraph \"" ++ r.graph.name ++ "\" \x7b") =
      textLines ("digraph \"" ++ "f\"") ++ ((DotStatement.vertex 4 (.constInt 0)).content.toList ::
        (DotStatement.operand 99 4 0).content.toList :: textLines ("\"" ++ "\" \x7b")) := by
    have hsplit : "digraph \"" ++ r.graph.name ++ "\" \x7b" = "digraph \"" ++ "f\"" ++ "\n" ++
        ((DotStatement.vertex 4 (.constInt 0)).content ++ "\n" ++
          ((DotStatement.operand 99 4 0).content ++ "\n" ++ ("\"" ++ "\" \x7b"))) := by
      rw [h.name_eq]
      simp only [forged, String.append_assoc]
    rw [hsplit, textLines_append, textLines_append, textLines_append, hvertex, hedge]
    rfl
  have hdraws : drawsNode 4 (DotStatement.vertex 4 (.constInt 0)).content.toList = true :=
    drawsNode_content.2 ⟨_, rfl⟩
  have hlinks : drawsEdge 4 99 (DotStatement.operand 99 4 0).content.toList = true :=
    drawsEdge_content.2 rfl
  have htwice : 0 < ((r.graph.dotStatements.map DotStatement.content).flatMap textLines).countP
      (drawsNode 4) := by
    refine countP_pos_iff.2 ⟨_, mem_flatMap.2 ⟨_, mem_map_of_mem (r.graph.vertex_mem_iff.2
      ⟨hreachable, rfl⟩), ?_⟩, hdraws⟩
    rw [hkind, hvertex]
    exact .head _
  have honce : 0 < (textLines ("digraph \"" ++ r.graph.name ++ "\" \x7b")).countP (drawsNode 4) :=
    countP_pos_iff.2 ⟨_, hfirst ▸ mem_append_right _ (.head _), hdraws⟩
  rw [textLines_dot_eq, dotLines]
  simp only [flatMap_append, flatMap_cons, countP_append, mem_append]
  refine ⟨by omega, ⟨_, ?_, hlinks⟩, hnot⟩
  exact .inl (.inl (.inl (.inl (hfirst ▸ mem_append_right _ (.tail _ (.head _))))))

end SsaCompiler
