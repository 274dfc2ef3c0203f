import SsaCompiler.Proofs.Graph.Control
import SsaCompiler.Proofs.Program.Frame
import SsaCompiler.Proofs.Program.Translation

/-!
# The control flow of the graph of a function

Lowering makes no blocks and no jumps, so the graph of a function has the control
flow that the walk has left. **It is regular** (`Translated.regular`), and its
blocks have labels of their own (`Translated.labelled`).
-/

namespace SsaCompiler

open List Builder
open Graph (startBlock endBlock)

open Stage

variable {k : Kind} {block : NodeId} {path : Path}

theorem Kind.isTerminator_eq_false_of_isFormula (h : k.isFormula) : k.isTerminator = false := by
  cases k <;> first | rfl | cases h

theorem Kind.isBlock_eq_false_of_isFormula (h : k.isFormula) : k.isBlock = false := by
  cases k <;> first | rfl | cases h

theorem Stage.labelled_first (name : String) (sharing : Bool) : (first name sharing).graph.Labelled
      fun n => .block (if n = endBlock then "end" else "start") 0 := by
  have hc : ∀ b, ((first name sharing).graph.kind b).isBlock = true → b = 0 ∨ b = 2 := by
    intro b hb
    rcases b with _ | _ | _ | _ | b
    · exact .inl rfl
    · cases hb
    · exact .inr rfl
    · cases hb
    · cases hb
  refine ⟨fun b hb => ?_, fun b b' hb hb' he => ?_, fun b hb => ⟨_, 0, rfl, ?_⟩, fun b _ hend => ?_⟩
  · rcases hc b hb with rfl | rfl <;> rfl
  · rcases hc b hb with rfl | rfl <;> rcases hc b' hb' with rfl | rfl
    · rfl
    · exact absurd he (by decide)
    · exact absurd he (by decide)
    · rfl
  · rcases hc b hb with rfl | rfl
    · exact (by decide : 0 < ["end", "start"].count "start")
    · exact (by decide : 0 < ["end", "start"].count "end")
  · rw [if_neg hend]
    exact (by decide : "start" ∈ bodyRoles)

namespace Translated

variable {f : Function} {s : Stage} {flow : Flow} {r : FunctionGraph} {n : NodeId}

theorem tends (h : Translated f s flow r) : Tends (· = startBlock) (first f.name true) s :=
  h.walks.tends

/-! ## What lowering keeps -/

section Kinds

variable (h : Translated f s flow r)

include h

theorem name_eq : r.graph.name = f.name := by
  rw [h.lowered, h.draft_extends.name]
  exact h.tends.grows.name

theorem size_le : s.graph.size ≤ r.graph.size := h.lowered ▸ h.draft_extends.size_le

theorem kind_eq (hn : n < s.graph.size) : r.graph.kind n = s.graph.kind n :=
  h.lowered ▸ h.draft_extends.kind n hn

theorem blockOf_eq (hn : n < s.graph.size) : r.graph.blockOf n = s.graph.blockOf n :=
  h.lowered ▸ h.draft_extends.blockOf n hn

/-- What is no formula was there before lowering. -/
theorem kind_eq_of_not_isFormula (hn : (r.graph.kind n).isFormula = false) :
    n < s.graph.size ∧ r.graph.kind n = s.graph.kind n := by
  have hlt : n < s.graph.size := by
    by_contra hle
    rw [h.lowered, h.draft_extends.fresh n (not_lt.1 hle)] at hn
    cases hn
  exact ⟨hlt, h.kind_eq hlt⟩

theorem isTerminator_eq (n : NodeId) :
    (r.graph.kind n).isTerminator = (s.graph.kind n).isTerminator := by
  by_cases hn : n < s.graph.size
  · rw [h.kind_eq hn]
  · have hf := h.draft_extends.fresh n (not_lt.1 hn)
    rw [← h.lowered] at hf
    rw [kind_of_size_le _ (not_lt.1 hn)]
    exact Kind.isTerminator_eq_false_of_isFormula hf

theorem isBlock_eq (n : NodeId) : (r.graph.kind n).isBlock = (s.graph.kind n).isBlock := by
  by_cases hn : n < s.graph.size
  · rw [h.kind_eq hn]
  · have hf := h.draft_extends.fresh n (not_lt.1 hn)
    rw [← h.lowered] at hf
    rw [kind_of_size_le _ (not_lt.1 hn)]
    exact Kind.isBlock_eq_false_of_isFormula hf

theorem kind_eq_of_isTerminator (hn : (s.graph.kind n).isTerminator) :
    r.graph.kind n = s.graph.kind n :=
  h.kind_eq (lt_of_isTerminator hn)

/-- **Lowering leaves the jumps into a block alone.** -/
theorem operands_block (hn : (s.graph.kind n).isBlock) :
    r.graph.operands n = s.graph.operands n := by
  obtain ⟨σ, hσ, hr⟩ := h.draft_extends.resolved
  have hkind : s.graph.kind n ≠ .condValue := fun hk => absurd (hk ▸ hn) nofun
  rw [h.lowered, hr n (lt_of_isBlock hn) hkind]
  refine (map_congr_left fun a ha => ?_).trans (map_id _)
  have ht := h.wired.wf.jumps n hn a ha
  exact hσ a fun hk => absurd (hk ▸ ht) nofun

theorem preds_eq (hn : (s.graph.kind n).isBlock) : r.graph.preds n = s.graph.preds n := by
  unfold Graph.preds
  rw [h.operands_block hn]
  exact map_congr_left fun a ha => h.blockOf_eq (h.wired.wf.coherent.closed n a ha)

theorem isBlock_pred {pred : NodeId} {index : Nat}
    (he : (s.graph.preds block)[index]? = some pred) : (s.graph.kind pred).isBlock := by
  rw [Graph.preds, getElem?_map] at he
  obtain ⟨jump, hj, rfl⟩ := Option.map_eq_some_iff.1 he
  exact h.wired.wf.home jump
    (h.wired.wf.coherent.closed block jump (mem_of_getElem? hj))

/-- **The paths to a block are those that the walk has left.** -/
theorem isPath_iff (hl : (s.graph.kind (Path.last path)).isBlock) :
    IsPath r.graph.preds path ↔ IsPath s.graph.preds path := by
  constructor <;> intro hp <;> induction hp with
  | nil => exact .nil
  | @cons path block index hp he ih =>
    have hb : (s.graph.kind block).isBlock = true := hl
    have heq := h.preds_eq hb
    first
    | exact .cons (ih (h.isBlock_pred he)) (heq ▸ he)
    | exact .cons (ih (h.isBlock_pred (heq ▸ he))) (heq ▸ he)

theorem isPath (hp : IsPath s.graph.preds path)
    (hl : (s.graph.kind (Path.last path)).isBlock) : IsPath r.graph.preds path :=
  (h.isPath_iff hl).2 hp

theorem reaches_iff (hn : (s.graph.kind n).isBlock) : r.graph.Reaches n ↔ s.graph.Reaches n :=
  ⟨fun ⟨path, hp, hl⟩ => ⟨path, (h.isPath_iff (hl.symm ▸ hn)).1 hp, hl⟩,
    fun ⟨path, hp, hl⟩ => ⟨path, h.isPath hp (hl.symm ▸ hn), hl⟩⟩

theorem dominates (hn : (s.graph.kind n).isBlock) (hdom : Dominates s.graph.preds block n) :
    Dominates r.graph.preds block n :=
  fun path hp hl => hdom path ((h.isPath_iff (hl.symm ▸ hn)).1 hp) hl

end Kinds

section

variable (h : Translated f s flow r)

include h

/-- Besides the start block and the end block all blocks are new. -/
theorem eq_startBlock_or (hn : (s.graph.kind n).isBlock) (hne : n ≠ endBlock) :
    n = startBlock ∨ (first f.name true).graph.size ≤ n := by
  refine or_iff_not_imp_right.2 fun hlt => ?_
  rw [h.tends.grows.kind n (Nat.lt_of_not_le hlt)] at hn
  rcases n with _ | _ | _ | _ | n
  · rfl
  · cases hn
  · exact absurd rfl hne
  · cases hn
  · cases hn

theorem blockOf_terminator (hn : (s.graph.kind n).isTerminator) : s.graph.blockOf n ≠ endBlock := by
  have hle : (first f.name true).graph.size ≤ n := by
    by_contra hlt
    rw [h.tends.grows.kind n (Nat.lt_of_not_le hlt)] at hn
    rcases n with _ | _ | _ | _ | n <;> cases hn
  rcases h.walked.ends n hle hn with he | hle
  · rw [he]
    exact nofun
  · exact Nat.ne_of_gt ((by decide : endBlock < 4).trans_le hle)

theorem endBlock_not_mem_targets (n : NodeId) : endBlock ∉ s.graph.targets n := by
  by_cases hlt : n < (first f.name true).graph.size
  · unfold Graph.targets
    rw [h.tends.grows.kind n hlt]
    rcases n with _ | _ | _ | _ | n <;> exact not_mem_nil
  · exact h.tends.targets n (not_lt.1 hlt)

/-- **The graph of a function has a complete control flow.** -/
theorem regular : r.graph.Regular := by
  have hw := h.wired
  have hwf := hw.wf
  have hterm : ∀ {n}, (r.graph.kind n).isTerminator = true →
      (s.graph.kind n).isTerminator = true := fun {n} hn => h.isTerminator_eq n ▸ hn
  have hblock : ∀ {n}, (r.graph.kind n).isBlock = true → (s.graph.kind n).isBlock = true :=
    fun {n} hn => h.isBlock_eq n ▸ hn
  have hlt : ∀ {n}, (s.graph.kind n).isTerminator = true → n < s.graph.size :=
    lt_of_isTerminator
  exact
    { coherent := h.lowered ▸ h.draft_extends.coherent
      entry := (h.isBlock_eq _).trans hwf.entry
      first := (h.operands_block hwf.entry).trans hw.entry
      home := fun n hn => by
        rw [h.isBlock_eq]
        by_cases ho : n < s.graph.size
        · rw [h.blockOf_eq ho]
          exact hwf.home n ho
        · rw [h.lowered] at hn ⊢
          exact h.draft_extends.home n (not_lt.1 ho) hn
      self := fun n hn => by
        rw [h.blockOf_eq (lt_of_isBlock (hblock hn))]
        exact hw.self n (hblock hn)
      jumps := fun n hn a ha => by
        rw [h.operands_block (hblock hn)] at ha
        rw [h.isTerminator_eq]
        exact hwf.jumps n (hblock hn) a ha
      single := fun m n hm hn he => by
        rw [h.blockOf_eq (hlt (hterm hm)), h.blockOf_eq (hlt (hterm hn))] at he
        exact hw.single m n (hterm hm) (hterm hn) he
      exits := fun n hn target ht => by
        rw [h.kind_eq_of_isTerminator (hterm hn)] at ht
        rw [h.isBlock_eq]
        exact hw.targets n (hterm hn) target ht
      edges := fun block hb jump hj => by
        rw [h.operands_block (hblock hb), h.kind_eq_of_isTerminator (hterm hj)]
        exact hw.edges block (hblock hb) jump (hterm hj)
      reaches := fun n hn => by
        rw [h.blockOf_eq (hlt (hterm hn))]
        obtain ⟨path, hp, hl⟩ := hw.reaches n (hterm hn)
        exact ⟨path, h.isPath hp (hl ▸ hwf.home n (hlt (hterm hn))), hl⟩
      final := fun n hn => by
        rw [h.blockOf_eq (hlt (hterm hn))]
        exact h.blockOf_terminator (hterm hn)
      targets := fun n => by
        by_cases hn : (s.graph.kind n).isTerminator = true
        · rw [Graph.targets, h.kind_eq_of_isTerminator hn]
          exact h.endBlock_not_mem_targets n
        · refine Stage.endBlock_not_mem_targets ?_
          rw [h.isTerminator_eq]
          exact Bool.eq_false_iff.2 hn
      branches := fun n ifTrue ifFalse hn => by
        have hn' : (s.graph.kind n).isTerminator = true := hterm (by rw [hn]; rfl)
        rw [h.kind_eq_of_isTerminator hn'] at hn
        obtain ⟨hne, path, hp, hl, hv⟩ := hw.branches n ifTrue ifFalse hn
        refine ⟨hne, path, h.isPath hp (hl ▸ hwf.home n (hlt hn')), ?_, hv⟩
        rw [h.blockOf_eq (hlt hn')]
        exact hl }

/-- The blocks of a function have labels of their own. -/
theorem labelled : ∃ names, r.graph.Labelled names := by
  obtain ⟨names, hnames⟩ := h.tends.labelled ⟨_, labelled_first f.name true⟩
  refine ⟨names, hnames.mono (h.lowered ▸ h.draft_extends.name) (h.lowered ▸ h.draft_extends.roles)
    fun n hn => ?_⟩
  exact h.kind_eq (lt_of_isBlock (h.isBlock_eq n ▸ hn))

end

end Translated

end SsaCompiler
