import SsaCompiler.Proofs.Emission.Text
import SsaCompiler.Proofs.Program.Success

/-!
# The session after a program

The functions of a program are compiled one after the other, and the first
that does not return on all paths ends the compilation. By then the session
has counted the graph of that function, since a graph is built before it is
found that it cannot be laid out; everything else it has counted belongs to
the functions before.

What a function adds to the statistics does not depend on the session
(`Stats.recordCompiled`, `exists_runIn_function`), so after a program the
counts are sums, and the largest function is the first of the largest ones
(`Compile.session_after_program`).
-/

namespace SsaCompiler

open List SsaCompiler.Except

variable {registers : List Register} {f : Function} {c : CompiledFunction} {β α : Type}

/-! ## What the stages come to -/

/-- **What a function is compiled to**: its graph, its virtual registers,
their places, and its code. -/
structure CompiledFunction where
  built : FunctionGraph
  numbering : Numbering
  allocation : Allocation
  code : List Asm

/-- The number of instructions. -/
def CompiledFunction.size (c : CompiledFunction) : Nat :=
  (Asm.instructions c.code).length

/-- **The stages of a function**, without a session. -/
def Function.compiled (registers : List Register) (f : Function) :
    Except Failure CompiledFunction := do
  let built ← f.toGraph.mapError .fault
  let schedule ← (Schedule.build built.graph).mapError .error
  let numbering ← (Numbering.ofSchedule built.graph schedule).mapError .fault
  let lines ← Line.ofSchedule built.graph schedule numbering
  let allocation := Allocation.ofInterference registers (.ofLiveness (.solve lines))
  let code ← (Placed.function ⟨built.graph, numbering, allocation⟩ schedule).mapError (·.cause)
  pure { built, numbering, allocation, code }

/-- The stages, one by one. -/
theorem Function.compiled_eq_ok (h : f.compiled registers = .ok c) : ∃ schedule lines,
      f.toGraph = .ok c.built ∧ Schedule.build c.built.graph = .ok schedule
        ∧ Numbering.ofSchedule c.built.graph schedule = .ok c.numbering
        ∧ Line.ofSchedule c.built.graph schedule c.numbering = .ok lines
        ∧ c.allocation = .ofInterference registers (.ofLiveness (.solve lines))
        ∧ Placed.function ⟨c.built.graph, c.numbering, c.allocation⟩ schedule = .ok c.code := by
  obtain ⟨built, hb, h⟩ := bind_eq_ok.1 h
  obtain ⟨schedule, hs, h⟩ := bind_eq_ok.1 h
  obtain ⟨numbering, hn, h⟩ := bind_eq_ok.1 h
  obtain ⟨lines, hl, h⟩ := bind_eq_ok.1 h
  obtain ⟨code, hc, h⟩ := bind_eq_ok.1 h
  obtain rfl := pure_eq_ok.1 h
  simp only [mapError_eq_ok] at hb hs hn hc
  exact ⟨schedule, lines, hb, hs, hn, hl, rfl, hc⟩

theorem Function.code_of_compiled (h : f.compiled registers = .ok c) :
    f.code registers = .ok c.code := by
  obtain ⟨schedule, lines, hb, hs, hn, hl, ha, hc⟩ :=
    Function.compiled_eq_ok h
  rw [ha] at hc
  refine bind_eq_ok.2 ⟨c.built, mapError_eq_ok.2 hb, bind_eq_ok.2
    ⟨schedule, mapError_eq_ok.2 hs, bind_eq_ok.2 ⟨c.numbering,
      mapError_eq_ok.2 hn, bind_eq_ok.2 ⟨lines, hl, mapError_eq_ok.2 hc⟩⟩⟩⟩

/-- **A function that returns on all paths goes through all stages.** -/
theorem Function.exists_compiled (hr : f.body.returns)
    (hf : Register.destScratch ∉ registers) : ∃ c, f.compiled registers = .ok c := by
  obtain ⟨s, flow, r, h⟩ := f.exists_translated
  obtain ⟨schedule, ends, lines, hs, -, hn, hl⟩ := h.exists_lines hr
  obtain ⟨code, hc⟩ := Placed.exists_function hl registers hf
  exact ⟨⟨r, _, _, code⟩, bind_eq_ok.2 ⟨r, mapError_eq_ok.2 h.toGraph,
    bind_eq_ok.2 ⟨schedule, mapError_eq_ok.2 hs, bind_eq_ok.2
      ⟨_, mapError_eq_ok.2 hn, bind_eq_ok.2 ⟨lines, hl,
        bind_eq_ok.2 ⟨code, mapError_eq_ok.2 hc, rfl⟩⟩⟩⟩⟩⟩

/-! ## What a function adds to a session -/

/-- **What a compiled function adds to the statistics.** -/
def Stats.recordCompiled (s : Stats) (name : String) (c : CompiledFunction) : Stats :=
  let s := s.recordGraph c.built.graph.size c.built.phisRemoved
  let s := s.recordAllocation c.numbering.size c.allocation.spillSlots
  let s := ((Asm.instructions c.code).map (·.mnemonic)).foldl Stats.recordInstruction s
  s.recordFunction name c.size

theorem Session.foldl_emit (name : String) (mnemonics : List String) (s : Session) :
    (mnemonics.foldl (Session.emit name) s).stats = mnemonics.foldl Stats.recordInstruction s.stats
      ∧ (mnemonics.foldl (Session.emit name) s).current = s.current := by
  induction mnemonics generalizing s with
  | nil => exact ⟨rfl, rfl⟩
  | cons m rest ih => exact ih (Session.emit name s m)

namespace Compile

variable {registers : List Register} {f : Function} {s : Session}

theorem runIn_update_bind (g : Session → Session) (k : Unit → Compile β) :
    runIn s (update g >>= k) = runIn (g s) (k ()) := rfl

theorem runIn_certain_bind {r : Except Fault α} {a : α} (h : r = .ok a) (k : α → Compile β) :
    runIn s (certain r >>= k) = runIn s (k a) := by
  rw [h]
  rfl

theorem runIn_stage_bind {r : Except CompileError α} {a : α} (h : r = .ok a) (k : α → Compile β) :
    runIn s (stage r >>= k) = runIn s (k a) := by
  rw [h]
  rfl

theorem runIn_attempt_bind {r : Except Failure α} {a : α} (h : r = .ok a) (k : α → Compile β) :
    runIn s (attempt r >>= k) = runIn s (k a) := by
  rw [h]
  rfl

/-- **A compiled function is counted, and no function is at work
afterwards.** -/
theorem exists_runIn_function (h : f.compiled registers = .ok c) (s : Session) :
    ∃ t, runIn s (function ⟨registers, none⟩ f) = (.ok c.code, t)
      ∧ t.stats = s.stats.recordCompiled f.name c ∧ t.current = none := by
  obtain ⟨schedule, lines, hb, hs, hn, hl, ha, hc⟩ :=
    Function.compiled_eq_ok h
  rw [ha] at hc
  simp only [function, report, allocate, emit, runIn_update_bind, runIn_certain_bind hb,
    runIn_stage_bind hs, runIn_certain_bind hn, runIn_attempt_bind hl, pure_bind,
    bind_assoc, hc]
  refine ⟨_, rfl, ?_, rfl⟩
  show Stats.recordFunction (List.foldl (Session.emit _) _ _).stats _ _ = _
  rw [(Session.foldl_emit _ _ _).1, Stats.recordCompiled, ha]
  rfl

/-- **Of a function that does not return, the graph is counted**, and it stays
at work. -/
theorem exists_runIn_function_error (registers : List Register) (hr : f.body.returns = false)
    (s : Session) :
    ∃ r e t, f.toGraph = .ok r ∧ runIn s (function ⟨registers, none⟩ f) = (.error e, t)
      ∧ t.stats = s.stats.recordGraph r.graph.size r.phisRemoved ∧ t.current = some f.name := by
  obtain ⟨stage, flow, r, h⟩ := f.exists_translated
  simp only [function, report, runIn_update_bind, runIn_certain_bind h.toGraph, h.build_eq_error hr]
  exact ⟨r, _, _, h.toGraph, rfl, rfl, rfl⟩

theorem exists_runIn_functionOrReport {o : Options} {r : Except Failure (List Asm)} {t : Session}
    (h : runIn s (function o f) = (r, t)) :
    ∃ t', runIn s (functionOrReport o f) = (r, t') ∧ t'.stats = t.stats ∧ t'.current = t.current := by
  rw [functionOrReport, runIn_tryCatch, h]
  cases r with
  | ok code => exact ⟨t, rfl, rfl, rfl⟩
  | error e => exact ⟨_, rfl, rfl, rfl⟩

end Compile

/-! ## Statistics of several functions -/

theorem Tally.total_add (name : String) (t : Tally) : (t.add name).total = t.total + 1 := by
  unfold total
  induction t with
  | nil => rfl
  | cons x rest ih =>
    obtain ⟨other, count⟩ := x
    simp only [add]
    split
    · simp only [foldr_cons]
      omega
    · split
      · simp only [foldr_cons]
        omega
      · simp only [foldr_cons]
        omega

namespace Stats

theorem foldl_recordInstruction (mnemonics : List String) (s : Stats) :
    ∃ tally : Tally, tally.total = s.mnemonics.total + mnemonics.length
      ∧ mnemonics.foldl recordInstruction s
        = { s with
            instructionsEmitted := s.instructionsEmitted + mnemonics.length
            mnemonics := tally } := by
  induction mnemonics generalizing s with
  | nil => exact ⟨s.mnemonics, rfl, rfl⟩
  | cons m rest ih =>
    obtain ⟨tally, ht, hr⟩ := ih (s.recordInstruction m)
    refine ⟨tally, ?_, ?_⟩
    · rw [ht, recordInstruction, Tally.total_add, length_cons]
      omega
    · rw [foldl_cons, hr, recordInstruction, length_cons, Nat.add_right_comm, Nat.add_assoc]

/-- What several functions add, one after the other. -/
def recordAll (s : Stats) (done : List (Function × CompiledFunction)) : Stats :=
  done.foldl (fun s x => s.recordCompiled x.1.name x.2) s

/-- **Counts that add up**: those of `s'` are those of `s` and what the compiled
functions have. -/
structure Adds (s s' : Stats) (done : List CompiledFunction) : Prop where
  functions : s'.functionsCompiled = s.functionsCompiled + done.length
  nodes : s'.nodesCreated = s.nodesCreated + (done.map (·.built.graph.size)).sum
  phis : s'.phisRemoved = s.phisRemoved + (done.map (·.built.phisRemoved)).sum
  registers : s'.virtualRegisters = s.virtualRegisters + (done.map (·.numbering.size)).sum
  slots : s'.spillSlots = s.spillSlots + (done.map (·.allocation.spillSlots)).sum
  instructions : s'.instructionsEmitted = s.instructionsEmitted + (done.map (·.size)).sum
  mnemonics : s'.mnemonics.total = s.mnemonics.total + (done.map (·.size)).sum

/-- What a compiled function adds, field by field. -/
theorem exists_recordCompiled_eq (s : Stats) (name : String) (c : CompiledFunction) :
    ∃ tally : Tally, tally.total = s.mnemonics.total + c.size
      ∧ s.recordCompiled name c = recordFunction
        { s with
          nodesCreated := s.nodesCreated + c.built.graph.size
          phisRemoved := s.phisRemoved + c.built.phisRemoved
          virtualRegisters := s.virtualRegisters + c.numbering.size
          spillSlots := s.spillSlots + c.allocation.spillSlots
          instructionsEmitted := s.instructionsEmitted + c.size
          mnemonics := tally } name c.size := by
  obtain ⟨tally, ht, hf⟩ := foldl_recordInstruction
    ((Asm.instructions c.code).map (·.mnemonic))
    ((s.recordGraph c.built.graph.size c.built.phisRemoved).recordAllocation c.numbering.size
      c.allocation.spillSlots)
  rw [length_map] at ht hf
  exact ⟨tally, ht, congrArg (recordFunction · name c.size) hf⟩

theorem adds_recordCompiled (s : Stats) (name : String) (c : CompiledFunction) :
    Adds s (s.recordCompiled name c) [c] := by
  obtain ⟨tally, ht, heq⟩ := exists_recordCompiled_eq s name c
  rw [heq, recordFunction]
  split <;> exact ⟨rfl, rfl, rfl, rfl, rfl, rfl, ht⟩

theorem Adds.trans {s s' s'' : Stats} {done more : List CompiledFunction} (h : Adds s s' done)
    (h' : Adds s' s'' more) : Adds s s'' (done ++ more) := by
  refine ⟨?_, ?_, ?_, ?_, ?_, ?_, ?_⟩
  · rw [h'.functions, h.functions, length_append, Nat.add_assoc]
  · rw [h'.nodes, h.nodes, map_append, sum_append, Nat.add_assoc]
  · rw [h'.phis, h.phis, map_append, sum_append, Nat.add_assoc]
  · rw [h'.registers, h.registers, map_append, sum_append, Nat.add_assoc]
  · rw [h'.slots, h.slots, map_append, sum_append, Nat.add_assoc]
  · rw [h'.instructions, h.instructions, map_append, sum_append, Nat.add_assoc]
  · rw [h'.mnemonics, h.mnemonics, map_append, sum_append, Nat.add_assoc]

theorem adds_recordAll (s : Stats) (done : List (Function × CompiledFunction)) :
    Adds s (s.recordAll done) (done.map (·.2)) := by
  induction done generalizing s with
  | nil => exact ⟨rfl, rfl, rfl, rfl, rfl, rfl, rfl⟩
  | cons x done ih => exact (adds_recordCompiled s x.1.name x.2).trans (ih _)

/-- **The largest function so far**: none is larger, and those before it are
smaller. -/
structure Largest (s : Stats) (done : List (Function × CompiledFunction)) : Prop where
  le : ∀ x ∈ done, x.2.size ≤ s.largestSize
  none : done = [] → s.largestSize = 0 ∧ s.largestName = ""
  first : done ≠ [] → ∃ before x after, done = before ++ x :: after ∧ s.largestName = x.1.name
    ∧ s.largestSize = x.2.size ∧ ∀ y ∈ before, y.2.size < x.2.size

theorem largest_recordCompiled (s : Stats) (name : String) (c : CompiledFunction) :
    (s.recordCompiled name c).largestSize = max s.largestSize c.size
      ∧ (s.recordCompiled name c).largestName
        = if s.largestSize < c.size then name else s.largestName := by
  obtain ⟨tally, -, heq⟩ := exists_recordCompiled_eq s name c
  rw [heq, recordFunction]
  by_cases h : s.largestSize < c.size
  · rw [if_pos h, if_pos h]
    exact ⟨(Nat.max_eq_right h.le).symm, rfl⟩
  · rw [if_neg h, if_neg h]
    exact ⟨(Nat.max_eq_left (not_lt.1 h)).symm, rfl⟩

theorem largest_recordAll {done : List (Function × CompiledFunction)}
    (h : ∀ x ∈ done, 0 < x.2.size) : Largest (recordAll {} done) done := by
  induction done using List.reverseRecOn with
  | nil => exact ⟨forall_mem_nil _, fun _ => ⟨rfl, rfl⟩, fun h => absurd rfl h⟩
  | append_singleton done x ih =>
    have ih := ih fun y hy => h y (mem_append_left _ hy)
    obtain ⟨hs, hn⟩ := largest_recordCompiled (recordAll {} done) x.1.name x.2
    have hstep : recordAll {} (done ++ [x]) = (recordAll {} done).recordCompiled x.1.name x.2 :=
      foldl_append
    rw [hstep]
    refine ⟨fun y hy => ?_, fun hnil => absurd hnil (by simp), fun _ => ?_⟩
    · rw [hs]
      rcases mem_append.1 hy with hy | hy
      · exact (ih.le y hy).trans (Nat.le_max_left _ _)
      · obtain rfl := mem_singleton.1 hy
        exact Nat.le_max_right _ _
    · by_cases hlt : (recordAll {} done).largestSize < x.2.size
      · refine ⟨done, x, [], rfl, by rw [hn, if_pos hlt], ?_, fun y hy => ?_⟩
        · rw [hs, Nat.max_eq_right hlt.le]
        · exact (ih.le y hy).trans_lt hlt
      · -- the first function is never smaller than none
        have hne : done ≠ [] := by
          rintro rfl
          exact hlt ((ih.none rfl).1 ▸ h x (by simp))
        obtain ⟨before, y, after, rfl, hn', hs', hb⟩ := ih.first hne
        refine ⟨before, y, after ++ [x], by simp, ?_, ?_, hb⟩
        · rw [hn, if_neg hlt, hn']
        · rw [hs, Nat.max_eq_left (not_lt.1 hlt), hs']

end Stats

/-! ## The functions of a program, one after the other -/

namespace Compile

/-- **How far the functions of a program get**: `done` are those before the
first that does not return. -/
theorem exists_runIn_mapM (hfree : Register.destScratch ∉ registers) (p : Program)
    (s : Session) (hs : s.current = none) :
    ∃ done : List (Function × CompiledFunction), done.map (·.1) = p.takeWhile (·.body.returns)
        ∧ (∀ x ∈ done, x.1.compiled registers = .ok x.2)
        ∧ ((p.dropWhile (·.body.returns) = []
            ∧ ∃ t, runIn s (p.mapM (functionOrReport ⟨registers, none⟩))
                = (.ok (done.map (·.2.code)), t)
              ∧ t.stats = s.stats.recordAll done ∧ t.current = none)
          ∨ ∃ f rest r e t, p.dropWhile (·.body.returns) = f :: rest ∧ f.toGraph = .ok r
            ∧ f.code registers = .error e
            ∧ runIn s (p.mapM (functionOrReport ⟨registers, none⟩)) = (.error e, t)
            ∧ t.stats = (s.stats.recordAll done).recordGraph r.graph.size r.phisRemoved
            ∧ t.current = some f.name) := by
  induction p generalizing s with
  | nil => exact ⟨[], rfl, by simp, .inl ⟨rfl, s, rfl, rfl, hs⟩⟩
  | cons f rest ih =>
    rw [mapM_cons]
    cases hr : f.body.returns with
    | true =>
      obtain ⟨c, hc⟩ := Function.exists_compiled hr hfree
      obtain ⟨t, hrun, hstats, hcurrent⟩ := exists_runIn_function hc s
      obtain ⟨t, hrun, hstats', hcurrent'⟩ := exists_runIn_functionOrReport hrun
      obtain ⟨done, hd, hcompiled, hrest⟩ := ih t (hcurrent'.trans hcurrent)
      rw [hstats', hstats] at hrest
      refine ⟨(f, c) :: done, ?_, forall_mem_cons.2 ⟨hc, hcompiled⟩, ?_⟩
      · rw [map_cons, hd, takeWhile_cons, if_pos hr]
      · rw [dropWhile_cons, if_pos hr, runIn_bind, hrun]
        simp only [runIn_bind]
        rcases hrest with ⟨hnil, t', hrun', hstats', hcurrent'⟩
          | ⟨g, rest', r, e, t', hdrop, hg, he, hrun', hstats', hcurrent'⟩
        · rw [hrun']
          exact .inl ⟨hnil, t', rfl, hstats', hcurrent'⟩
        · rw [hrun']
          exact .inr ⟨g, rest', r, e, t', hdrop, hg, he, rfl, hstats', hcurrent'⟩
    | false =>
      obtain ⟨r, e, t, hg, hrun, hstats, hcurrent⟩ :=
        exists_runIn_function_error registers hr s
      have he : f.code registers = .error e :=
        (gives_function (o := ⟨registers, none⟩) rfl f s).symm.trans (congrArg Prod.fst hrun)
      obtain ⟨t, hrun, hstats', hcurrent'⟩ := exists_runIn_functionOrReport hrun
      have hf : ¬ f.body.returns = true := by rw [hr]; exact Bool.false_ne_true
      refine ⟨[], ?_, by simp, .inr ⟨f, rest, r, e, t, ?_, hg, he, ?_,
        hstats'.trans hstats, hcurrent'.trans hcurrent⟩⟩
      · rw [takeWhile_cons, if_neg hf]
        rfl
      · rw [dropWhile_cons, if_neg hf]
      · rw [runIn_bind, hrun]

/-- **How a program ends**: with the text of all its functions, or at the first
that does not return. -/
theorem exists_runIn_program (hf : Register.destScratch ∉ registers) (p : Program) {k : Nat}
    (hk : k = p.findIdx fun f => !f.body.returns) :
    ∃ done : List (Function × CompiledFunction),
      done.map (·.1) = p.take k ∧ (∀ x ∈ done, x.1.compiled registers = .ok x.2)
        ∧ ((k = p.length ∧ ∃ t, runIn {} (program ⟨registers, none⟩ p) = (.ok (".text\n"
                ++ String.join (done.map fun x => "\n" ++ Asm.render x.2.code)), t)
              ∧ t.stats = Stats.recordAll {} done ∧ t.current = none)
          ∨ ∃ f r e t, p[k]? = some f ∧ f.toGraph = .ok r ∧ f.code registers = .error e
            ∧ runIn {} (program ⟨registers, none⟩ p) = (.error e, t)
            ∧ t.stats = (Stats.recordAll {} done).recordGraph r.graph.size r.phisRemoved
            ∧ t.current = some f.name) := by
  obtain ⟨done, hd, hcompiled, hr⟩ := exists_runIn_mapM hf p {} rfl
  rw [takeWhile_eq_take_findIdx_not, ← hk] at hd
  simp only [dropWhile_eq_drop_findIdx_not, ← hk] at hr
  refine ⟨done, hd, hcompiled, ?_⟩
  rw [program, runIn_bind]
  rcases hr with ⟨hnil, t, hrun, hs, hc⟩
    | ⟨f, rest, r, e, t, hdrop, hg, he, hrun, hs, hc⟩
  · have hle : k ≤ p.length := hk ▸ findIdx_le_length
    have hmap : (done.map (·.2.code)).map (fun code => "\n" ++ Asm.render code)
        = done.map fun x => "\n" ++ Asm.render x.2.code := map_map
    rw [hrun, ← hmap]
    exact .inl ⟨hle.antisymm (drop_eq_nil_iff.1 hnil), _, rfl, hs, hc⟩
  · have hat : p[k]? = some f := by
      rw [← head?_drop, hdrop]
      rfl
    rw [hrun]
    exact .inr ⟨f, r, e, t, hat, hg, he, rfl, hs, hc⟩

/-- **The session after a program.** Let `k` be the number of functions before
the first that does not return on all paths. A program is compiled exactly if
all its functions return, and its text is then made of the texts that the
functions have alone; otherwise it fails as the function at `k` does alone.
Either way the first `k` functions are counted in full, and of the function at
`k`, if there is one, the graph alone; the largest function is the first of
those with the most instructions; and that at `k` is still at work. In the text
of a function the instructions are the lines indented by two spaces, if the
name of the function has no line break and does not begin with two spaces. The
scratch place of copies is none of the registers. -/
theorem session_after_program {registers : List Register}
    (hfree : Register.destScratch ∉ registers) (p : Program) :
    let k := p.findIdx fun f => !f.body.returns
    let result := (runIn {} (program ⟨registers, none⟩ p)).1
    let session := (runIn {} (program ⟨registers, none⟩ p)).2
    let stats := session.stats
    ∃ (graphs : List (Function × FunctionGraph)) (done : List (Function × CompiledFunction)),
      (graphs.map (·.1) = p.take (k + 1) ∧ ∀ x ∈ graphs, x.1.toGraph = .ok x.2)
        ∧ (done.map (·.1) = p.take k ∧ ∀ x ∈ done, x.1.compiled registers = .ok x.2
          ∧ (runIn {} (function ⟨registers, none⟩ x.1)).1 = .ok x.2.code
          ∧ (OneLine x.1.name → isIndented x.1.name.toList = false →
              x.2.size = indentedLines (Asm.render x.2.code)))
        ∧ ((∃ text, result = .ok text) ↔ k = p.length)
        ∧ (k = p.length →
            result = .ok (".text\n" ++ String.join (done.map fun x => "\n" ++ Asm.render x.2.code)))
        ∧ (∀ f, p[k]? = some f →
            ∃ e, result = .error e ∧ (runIn {} (function ⟨registers, none⟩ f)).1 = .error e)
        ∧ stats.functionsCompiled = k
        ∧ stats.nodesCreated = (graphs.map (·.2.graph.size)).sum
        ∧ stats.phisRemoved = (graphs.map (·.2.phisRemoved)).sum
        ∧ stats.virtualRegisters = (done.map (·.2.numbering.size)).sum
        ∧ stats.spillSlots = (done.map (·.2.allocation.spillSlots)).sum
        ∧ stats.instructionsEmitted = (done.map (·.2.size)).sum
        ∧ stats.instructionsEmitted = stats.mnemonics.total
        ∧ stats.Largest done
        ∧ session.current = p[k]?.map (·.name) := by
  intro k
  obtain ⟨done, hdone, hcompiled, hrest⟩ := exists_runIn_program hfree p (rfl : k = _)
  have hfacts : ∀ x ∈ done, x.1.compiled registers = .ok x.2
      ∧ (runIn {} (function ⟨registers, none⟩ x.1)).1 = .ok x.2.code
      ∧ (OneLine x.1.name → isIndented x.1.name.toList = false →
          x.2.size = indentedLines (Asm.render x.2.code)) := by
    intro x hx
    have hcode := Function.code_of_compiled (hcompiled x hx)
    refine ⟨hcompiled x hx, (gives_function (o := ⟨registers, none⟩) rfl x.1 {}).trans hcode, ?_⟩
    intro hline hspaces
    rw [Function.indentedLines_render hcode hline, hspaces]
    rfl
  have hadds := Stats.adds_recordAll {} done
  have total : ∀ g : CompiledFunction → Nat,
      0 + ((done.map (·.2)).map g).sum = (done.map fun x => g x.2).sum := fun g => by
    rw [List.map_map, Nat.zero_add]
    rfl
  have hcounted := (hadds.instructions.trans (total _)).trans (hadds.mnemonics.trans (total _)).symm
  have hlargest := Stats.largest_recordAll fun x hx =>
    Function.length_instructions_pos (Function.code_of_compiled (hcompiled x hx))
  have hlength : done.length = k := by
    rw [← List.length_map (f := (·.1)), hdone, List.length_take_of_le List.findIdx_le_length]
  have hfunctions : (Stats.recordAll {} done).functionsCompiled = k := by
    rw [hadds.functions, List.length_map, hlength]
    exact Nat.zero_add k
  have hbuilt : ∀ x ∈ done.map (fun x => (x.1, x.2.built)), x.1.toGraph = .ok x.2 := by
    refine List.forall_mem_map.2 fun x hx => ?_
    obtain ⟨_, _, hgraph, -⟩ := Function.compiled_eq_ok (hcompiled x hx)
    exact hgraph
  have hgraphs : (done.map fun x => (x.1, x.2.built)).map (·.1) = p.take k := by
    rw [List.map_map, ← hdone]
    rfl
  rcases hrest with ⟨hlast, t, hrun, hstats, hcurrent⟩
    | ⟨f, r, e, t, hat, hgraph, herror, hrun, hstats, hcurrent⟩
  · have hnone : p[k]? = none := List.getElem?_eq_none (Nat.le_of_eq hlast.symm)
    rw [hrun, hnone]
    show ∃ graphs done, _
    rw [hstats, hcurrent]
    refine ⟨done.map fun x => (x.1, x.2.built), done, ⟨?_, hbuilt⟩, ⟨hdone, hfacts⟩,
      iff_of_true ⟨_, rfl⟩ hlast, fun _ => rfl, fun _ h => absurd h nofun, hfunctions, ?_, ?_,
      hadds.registers.trans (total _), hadds.slots.trans (total _),
      hadds.instructions.trans (total _), hcounted, hlargest, rfl⟩
    · rw [hgraphs, List.take_of_length_le (Nat.le_of_eq hlast.symm),
        List.take_of_length_le (Nat.le_succ_of_le (Nat.le_of_eq hlast.symm))]
    · rw [List.map_map]
      exact hadds.nodes.trans (total _)
    · rw [List.map_map]
      exact hadds.phis.trans (total _)
  · have hlt : k < p.length := (List.getElem?_eq_some_iff.1 hat).1
    have hlarge : ((Stats.recordAll {} done).recordGraph r.graph.size r.phisRemoved).Largest done :=
      ⟨hlargest.le, hlargest.none, hlargest.first⟩
    rw [hrun, hat]
    show ∃ graphs done, _
    rw [hstats, hcurrent]
    refine ⟨(done.map fun x => (x.1, x.2.built)) ++ [(f, r)], done, ⟨?_, ?_⟩, ⟨hdone, hfacts⟩,
      iff_of_false (fun ⟨_, h⟩ => absurd h nofun) (Nat.ne_of_lt hlt),
      fun h => absurd h (Nat.ne_of_lt hlt), fun f' hf => ?_, hfunctions, ?_, ?_,
      hadds.registers.trans (total _), hadds.slots.trans (total _),
      hadds.instructions.trans (total _), hcounted, hlarge, rfl⟩
    · rw [List.map_append, hgraphs, List.take_add_one, hat]
      rfl
    · exact List.forall_mem_append.2 ⟨hbuilt, List.forall_mem_singleton.2 hgraph⟩
    · obtain rfl := Option.some.inj hf
      exact ⟨e, rfl, (gives_function (o := ⟨registers, none⟩) rfl f {}).trans herror⟩
    · rw [List.map_append, List.sum_append, List.map_map]
      exact congrArg (· + r.graph.size) (hadds.nodes.trans (total _))
    · rw [List.map_append, List.sum_append, List.map_map]
      exact congrArg (· + r.phisRemoved) (hadds.phis.trans (total _))

/-- **The second of three functions does not return**, so that one is counted and the
second is at work in the end. -/
theorem session_after_unfinished :
    let p : Program := [⟨"f", .ret (.int 0)⟩, ⟨"g", .skip⟩, ⟨"h", .ret (.int 1)⟩]
    Register.destScratch ∉ Register.allocatable ∧ (∃ e, (runIn {} (program {} p)).1 = .error e) ∧
      (runIn {} (program {} p)).2.stats.functionsCompiled = 1 ∧
      (runIn {} (program {} p)).2.current = some "g" := by
  intro p
  have hfree : Register.destScratch ∉ Register.allocatable := by decide
  obtain ⟨_, _, _, _, _, _, hfails, hcount, -, -, -, -, -, -, -, hcurrent⟩ :=
    session_after_program hfree p
  obtain ⟨e, he, -⟩ := hfails ⟨"g", .skip⟩ rfl
  exact ⟨hfree, ⟨e, he⟩, hcount, hcurrent⟩

/-- A function whose name begins with two spaces. -/
def spacedName : Function :=
  ⟨"  f", .ret (.int 0)⟩

/-- **A name on one line is not enough** for the indented lines to be the
instructions: the symbol `  f` is indented, too. -/
theorem spacedName_miscounts : ∃ code,
    (runIn {} (function {} spacedName)).1 = .ok code ∧ OneLine spacedName.name
      ∧ (runIn {} (function {} spacedName)).2.stats.instructionsEmitted
        ≠ indentedLines (Asm.render code) := by
  obtain ⟨c, hc⟩ : ∃ c, spacedName.compiled Register.allocatable = .ok c :=
    Function.exists_compiled rfl (by decide)
  obtain ⟨t, hrun, hstats, -⟩ := exists_runIn_function hc {}
  have hname : OneLine spacedName.name := by decide
  have hcount : t.stats.instructionsEmitted = c.size := by
    rw [hstats, (Stats.adds_recordCompiled _ _ _).instructions]
    simp
  have hspaces : isIndented spacedName.name.toList = true := by decide
  refine ⟨c.code, congrArg Prod.fst hrun, hname, ?_⟩
  rw [hrun, Function.indentedLines_render (Function.code_of_compiled hc) hname, if_pos hspaces,
    hcount]
  exact Nat.ne_of_lt (Nat.lt_succ_self _)

end Compile

end SsaCompiler
