import SsaCompiler.Proofs.Compile
import SsaCompiler.Proofs.Graph.Lines
import SsaCompiler.Proofs.Program.Strict

/-!
# Which functions are compiled

Control comes from every block that is laid out to a return, or to the block in
which the walk over the body has ended. So that block is the only one that can be
without an end, and it is without one exactly if the body does not return by its
shape (`Translated.exists_terminator`). The graph of a function is complete, so
**nothing else can go wrong** (`Compile.function_succeeds_iff_returns`), but for one
thing: if values may be in the scratch place of copies, the copies along an edge may
never come to an end (`Compile.swap_has_no_end`).
-/

namespace SsaCompiler

open List Schedule

variable {g : Graph}

namespace Schedule

/-- **The first block without an end is named.** -/
theorem terminators_eq_error {layout : List NodeId} {block : NodeId} (hm : block ∈ layout)
    (hn : g.terminator? block = none)
    (hr : ∀ b ∈ layout, b ≠ block → ∃ t, g.terminator? b = some t) :
    terminators g layout = .error (.missingTerminator g.name (g.label block)) := by
  unfold terminators
  induction layout with
  | nil => cases hm
  | cons b layout ih =>
    rw [mapM_cons]
    by_cases hb : b = block
    · rw [hb, hn]
      rfl
    · obtain ⟨t, ht⟩ := hr b (.head _) hb
      rw [ht, ih ((mem_cons.1 hm).resolve_left (Ne.symm hb)) fun b hb =>
        hr b (.tail _ hb)]
      rfl

theorem build_eq_error {e : CompileError} (h : terminators g g.layout = .error e) :
    build g = .error e :=
  Except.bind_eq_error h

end Schedule

/-- **A complete graph has lines** if every laid-out block has an end. -/
theorem Graph.Complete.exists_lines {dead : NodeId → Prop} (h : g.Complete dead)
    (he : ∀ block ∈ g.layout, ∃ t, g.terminator? block = some t) :
    ∃ s ends lines, Schedule.build g = .ok s ∧ s.Built g ends ∧
      Numbering.ofSchedule g s = .ok (s.numbering g) ∧
      Line.ofSchedule g s (s.numbering g) = .ok lines := by
  choose! endOf he using he
  have hall : List.Forall₂ (fun block t => g.terminator? block = some t) g.layout
      (g.layout.map endOf) := List.forall₂_map_right_iff.2 (List.forall₂_same.2 he)
  obtain ⟨s, hs⟩ := exists_build h hall
  obtain ⟨ends, hb⟩ := build_eq_ok hs
  obtain ⟨lines, hl⟩ := hb.exists_lines h
  exact ⟨s, ends, lines, hs, hb, hb.numbering_eq h, hl⟩

namespace Translated

variable {f : Function} {s : Stage} {flow : Flow} {r : FunctionGraph} {block : NodeId}

/-- **Every laid-out block has an end**, but for the one in which the walk has
ended if control goes on there. -/
theorem exists_terminator (h : Translated f s flow r) (hb : block ∈ r.graph.layout) :
    (∃ t, r.graph.terminator? block = some t) ∨ flow = .continues ∧ block = s.current := by
  have hr := h.regular
  obtain ⟨hi, hreaches, hne⟩ := hr.reaches_of_mem_layout hb
  rw [h.isBlock_eq] at hi
  rcases h.walked.onward block (h.eq_startBlock_or hi hne) hi with
    ⟨hnil, hnot⟩ | ⟨goal, hg, hl⟩
  · obtain ⟨path, hp, rfl⟩ := (h.reaches_iff hi).1 hreaches
    exact absurd (Path.visits_last path) (hp.not_visits hnil hnot)
  · rcases Relation.ReflTransGen.cases_head hl with rfl | ⟨next, ⟨hn, hmem⟩, -⟩
    · exact .inr (hg.resolve_right hne)
    · obtain ⟨jump, hj, rfl⟩ := mem_map.1 hmem
      have ht := h.wired.wf.jumps next hn jump hj
      have he := hr.terminator?_eq ((h.isTerminator_eq jump).trans ht)
      rw [h.blockOf_eq (Builder.lt_of_isTerminator ht)] at he
      exact .inl ⟨jump, he⟩

/-- **Where control goes on, the block has no end.** -/
theorem terminator?_current (h : Translated f s .continues r) :
    s.current ∈ r.graph.layout ∧ r.graph.terminator? s.current = none := by
  have hs := h.walked.toSite (Stage.site_first f.name true)
  have hb := hs.current
  refine ⟨h.regular.mem_layout_of_reaches ((h.isBlock_eq _).trans hb)
    ((h.reaches_iff hb).2 hs.reached) hs.notFinal, Option.eq_none_iff_forall_ne_some.2
      fun t ht => ?_⟩
  obtain ⟨hterm, hh⟩ := Graph.terminator?_eq_some ht
  rw [h.isTerminator_eq] at hterm
  rw [h.blockOf_eq (Builder.lt_of_isTerminator hterm)] at hh
  exact hs.isOpen t hterm hh

/-- **The lines of a function that returns.** -/
theorem exists_lines (h : Translated f s flow r) (hr : f.body.returns) :
    ∃ schedule ends lines, Schedule.build r.graph = .ok schedule ∧ schedule.Built r.graph ends ∧
      Numbering.ofSchedule r.graph schedule = .ok (schedule.numbering r.graph) ∧
      Line.ofSchedule r.graph schedule (schedule.numbering r.graph) = .ok lines := by
  have hf := h.walks.flow_eq
  rw [hr] at hf
  refine h.complete.exists_lines fun block hb => ?_
  exact (h.exists_terminator hb).resolve_right fun ⟨he, _⟩ => absurd (hf.symm.trans he) nofun

theorem label_current (h : Translated f s flow r) :
    r.graph.label s.current = s.graph.label s.current := by
  have hb := h.wired.current
  have hlt := Builder.lt_of_isBlock hb
  unfold Graph.label
  rw [h.blockOf_eq hlt, h.wired.self _ hb, h.kind_eq hlt]

/-- **Where the body does not return, the block in which the walk has ended
cannot be laid out.** -/
theorem build_eq_error (h : Translated f s flow r) (hr : f.body.returns = false) :
    Schedule.build r.graph
      = .error (.missingTerminator f.name (s.graph.label s.current)) := by
  have hf := h.walks.flow_eq
  rw [hr] at hf
  obtain rfl : flow = .continues := hf
  obtain ⟨hmem, hn⟩ := h.terminator?_current
  rw [← h.name_eq, ← h.label_current]
  exact build_eq_error (terminators_eq_error hmem hn fun b hb hne =>
    (h.exists_terminator hb).resolve_right fun ⟨_, he⟩ => hne he)

/-- **The graph of a function has code exactly if the body returns**, unless its
copies have no end. -/
theorem code_eq (h : Translated f s flow r) (registers : List Register) :
    (f.body.returns → Register.destScratch ∉ registers → ∃ code, f.code registers = .ok code) ∧
      (f.body.returns → ∀ e, f.code registers = .error e → e = .fault .endlessMoves) ∧
      (f.body.returns = false → f.code registers =
        .error (.error (.missingTerminator f.name (s.graph.label s.current)))) := by
  refine ⟨fun hr hf => ?_, fun hr e he => ?_, fun hr => ?_⟩
  · obtain ⟨schedule, ends, lines, hb, -, hn, hl⟩ := h.exists_lines hr
    obtain ⟨code, hc⟩ := Placed.exists_function hl registers hf
    rw [Function.code_eq h.toGraph hb hn hl, hc]
    exact ⟨code, rfl⟩
  · obtain ⟨schedule, ends, lines, hb, -, hn, hl⟩ := h.exists_lines hr
    rw [Function.code_eq h.toGraph hb hn hl] at he
    cases hc : Placed.function _ schedule with
    | ok code => exact absurd (hc ▸ he) nofun
    | error i =>
      rw [hc] at he
      cases he
      exact Placed.function_failsBy hl registers i hc
  · unfold Function.code
    rw [h.toGraph]
    show r.graph.code registers = _
    refine Except.bind_eq_error ?_
    rw [h.build_eq_error hr]
    rfl

end Translated

namespace Compile

/-- **A function is compiled exactly if its body returns on all paths by its
shape**, whatever list of machine registers is given, as long as the scratch place
of copies is not in it. A body that does not return is without an end in the block
in which the walk over it has ended, and the result is that and nothing else. With
any list at all, a body that returns has code or copies that never come to an end. -/
theorem function_succeeds_iff_returns (registers : List Register) (f : Function)
    (session : Session) :
    ∃ flow b, f.body.build (Builder.init f.name true) = .ok (flow, b) ∧
      (Register.destScratch ∉ registers →
        ((∃ code, (runIn session (function ⟨registers, none⟩ f)).1 = .ok code) ↔
          f.body.returns = true)) ∧
      (f.body.returns = false → (runIn session (function ⟨registers, none⟩ f)).1 =
        .error (.error (.missingTerminator f.name (b.graph.label b.current)))) ∧
      (f.body.returns = true → ∀ e, (runIn session (function ⟨registers, none⟩ f)).1 = .error e →
        e = .fault .endlessMoves) := by
  obtain ⟨s, flow, r, h⟩ := f.exists_translated
  obtain ⟨hok, hend, herror⟩ := h.code_eq registers
  refine ⟨flow, s.toBuilder, h.walks.build_eq, ?_⟩
  rw [gives_function (o := ⟨registers, none⟩) rfl f session]
  refine ⟨fun hfree => ⟨fun ⟨code, hcode⟩ => ?_, fun hreturns => hok hreturns hfree⟩, herror, hend⟩
  by_contra hreturns
  rw [show f.code _ = _ from herror (Bool.eq_false_iff.2 hreturns)] at hcode
  exact absurd hcode nofun

/-- A loop that exchanges two variables. -/
def swap : Function :=
  ⟨"main", .seq (.declare "a" .int (some (.int 1))) (.seq (.declare "b" .int (some (.int 2)))
    (.seq (.declare "i" .int (some (.int 0))) (.seq
      (.loop (.binary (.compare .less) (.var "i") (.int 3))
        (.seq (.declare "t" .int (some (.var "a"))) (.seq (.assign "a" none (.var "b"))
          (.seq (.assign "b" none (.var "t")) (.assign "i" (some (.arith .add)) (.int 1))))))
      (.ret (.binary (.arith .add) (.binary (.arith .mul) (.var "a") (.int 10)) (.var "b"))))))⟩

/-- **With the scratch place of copies among the registers, a body that returns may
have no code.** The two variables of the loop are in `%edi` and `%r15d`, and the
copies that exchange them have no end, with or without a bound. -/
theorem swap_has_no_end : swap.body.returns = true ∧
    (runIn {} (function ⟨[.rbx, .rsi, .rdi, .r15], none⟩ swap)).1 = .error (.fault .endlessMoves) ∧
    ∀ performed, ¬ ParallelMove.Performs Instr.destScratch
      [(.reg .r15, .reg .rdi), (.reg .rdi, .reg .r15)] performed := by
  refine ⟨rfl, by decide +kernel, fun performed h => ?_⟩
  have hnone : ParallelMove.sequentialize Instr.destScratch
      [(.reg .r15, .reg .rdi), (.reg .rdi, .reg .r15)] = none := by decide
  cases hnone.symm.trans (ParallelMove.sequentialize_eq_some.2 h)

end Compile

end SsaCompiler
