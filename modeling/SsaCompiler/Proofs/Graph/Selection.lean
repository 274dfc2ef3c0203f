import SsaCompiler.Proofs.Graph.Control
import SsaCompiler.Proofs.Graph.Strict

/-!
# What the ends of blocks need

A graph is **complete** if its control flow is, if it is strict, and if every merge
in use has an operand for every edge into its block (`Graph.Complete`). Whatever
the ends of laid-out blocks depend on then belongs to laid-out blocks as well, is
in use, and has all the operands its kind asks for (`Graph.Selected`). So **a
complete graph is scheduled as soon as every laid-out block has an end**
(`Graph.Complete.exists_built`).
-/

namespace SsaCompiler

open List Kind

variable {k : Kind} {index : Nat}

theorem Kind.isPhi_of_isValuePhi (h : k.isValuePhi) : k.isPhi := by
  cases k <;> first | rfl | cases h

theorem Kind.isShareable_eq_false_of_isTerminator (h : k.isTerminator) : k.isShareable = false := by
  cases k <;> first | rfl | cases h

theorem Kind.isShareable_eq_false_of_isEffect {count : Nat} (h : k.isEffect)
    (ha : k.arity? = some count) : k.isShareable = false := by
  cases k with
  | undefined | phi => cases ha
  | proj => rfl
  | _ => cases h

theorem Kind.isShareable_eq_false_of_mayTrap (h : k.mayTrap) : k.isShareable = false := by
  cases k with
  | binary op =>
    show (!op.hasEffect) = false
    rw [show op.hasEffect = true from h]
    rfl
  | _ => cases h

/-- **A node that asks for nothing in particular** has no operands, or is a block
or an output. -/
theorem Kind.arity?_of_takes (h : k.takes index = none) (hb : k.isBlock = false)
    (hp : k.isProj = false) :
    k.arity? = some 0 ∨ k = .undefined := by
  cases k with
  | start | constInt | constBool | jump => exact .inl rfl
  | undefined => exact .inr rfl
  | block => cases hb
  | proj => cases hp
  | binary =>
    have h : (if index < 2 then some Channel.value else some .effect) = none := h
    split at h <;> cases h
  | ret =>
    have h : (if index = 0 then some Channel.effect else some .value) = none := h
    split at h <;> cases h
  | _ => cases h

namespace Graph

/-- **A graph that can be scheduled**, with the nodes that are not in use. -/
structure Complete (g : Graph) (dead : NodeId → Prop) : Prop extends g.Regular where
  strict : g.Strict g dead
  gone : ∀ n, dead n → (g.kind n).isPhi = true ∨ g.kind n = .condValue
  lowered : ∀ n, g.kind n = .condValue → dead n
  /-- A merge has an operand for every edge into its block. -/
  arity : ∀ n, (g.kind n).isPhi = true → ¬ dead n → g.blockOf n ≠ endBlock →
    (g.operands n).length = (g.operands (g.blockOf n)).length
  /-- Nothing is merged in the start block. -/
  unmerged : ∀ n, (g.kind n).isPhi = true → ¬ dead n → g.blockOf n ≠ startBlock

/-- **A node that the ends of laid-out blocks need.** -/
structure Selected (g : Graph) (dead : NodeId → Prop) (n : NodeId) : Prop where
  live : ¬ dead n
  home : g.blockOf n ∈ g.layout
  whole : ∀ k, (g.kind n).arity? = some k → (g.operands n).length = k

variable {g : Graph} {dead : NodeId → Prop} {n a t block : NodeId}

theorem mem_next (h : a ∈ g.operands n) : a ∈ g.next n := by
  unfold next
  split
  · exact h
  · exact mem_append_left _ h

theorem Formed.whole (h : g.Formed n) (hshare : (g.kind n).isShareable = false) (k : Nat)
    (hk : (g.kind n).arity? = some k) : (g.operands n).length = k :=
  (h.arity k hk).resolve_right fun hs => absurd (hshare.symm.trans hs.1) nofun

theorem Formed.whole_of_fits (h : g.Formed n) {channel : Channel} (hf : g.Fits channel n)
    (k : Nat) (hk : (g.kind n).arity? = some k) : (g.operands n).length = k := by
  cases channel with
  | value => exact hf.arity k hk
  | effect => exact h.whole (isShareable_eq_false_of_isEffect hf hk) k hk

namespace Complete

variable (h : g.Complete dead)

include h

theorem not_dead_of_isBlock (hn : (g.kind n).isBlock) : ¬ dead n := fun hd => by
  rcases h.gone n hd with hphi | hc
  · exact absurd ((isBlock_eq_false_of_isPhi hphi).symm.trans hn) nofun
  · rw [hc] at hn
    cases hn

theorem not_dead_of_isTerminator (hn : (g.kind n).isTerminator) : ¬ dead n := fun hd => by
  rcases h.gone n hd with hphi | hc
  · exact absurd ((isTerminator_eq_false_of_isPhi hphi).symm.trans hn) nofun
  · rw [hc] at hn
    cases hn

theorem selected_block (hn : block ∈ g.layout) : g.Selected dead block := by
  have hb := (h.reaches_of_mem_layout hn).1
  refine ⟨h.not_dead_of_isBlock hb, (h.self block hb).symm ▸ hn, fun k hk => ?_⟩
  cases (isBlock_eq_false_of_arity? hk).symm.trans hb

theorem selected_terminator (hn : (g.kind t).isTerminator) (hh : g.blockOf t ∈ g.layout) :
    g.Selected dead t :=
  ⟨h.not_dead_of_isTerminator hn, hh,
    (h.strict.formed t).whole (isShareable_eq_false_of_isTerminator hn)⟩

theorem exists_pred (hn : g.Selected dead n) (hphi : (g.kind n).isPhi)
    (ha : (g.operands n)[index]? = some a) :
    ∃ pred, (g.preds (g.blockOf n))[index]? = some pred := by
  have hlt := (List.getElem?_eq_some_iff.1 ha).1
  rw [h.arity n hphi hn.live (h.reaches_of_mem_layout hn.home).2.2] at hlt
  exact ⟨_, List.getElem?_eq_getElem ((List.length_map _).symm ▸ hlt)⟩

/-- **The operands of a node that is needed belong to laid-out blocks.** -/
theorem home_of_mem_operands (hn : g.Selected dead n) (ha : a ∈ g.operands n) :
    g.blockOf a ∈ g.layout := by
  by_cases hb : (g.kind n).isBlock = true
  · have ht := h.jumps n hb a ha
    have hlt := Builder.lt_of_isTerminator ht
    exact h.mem_layout_of_reaches (h.home a hlt) (h.reaches a ht) (h.final a ht)
  · by_cases hphi : (g.kind n).isPhi = true
    · obtain ⟨index, hi⟩ := mem_iff_getElem?.1 ha
      obtain ⟨pred, hp⟩ := h.exists_pred hn hphi hi
      have hisBlock := (h.reaches_of_mem_layout hn.home).1
      obtain ⟨jump, -, ht, rfl, -⟩ := h.exists_jump hisBlock hp
      have hlt := Builder.lt_of_isTerminator ht
      exact h.mem_layout_of_dominates
        (h.mem_layout_of_reaches (h.home jump hlt) (h.reaches jump ht) (h.final jump ht))
        (h.strict.merges n hphi index a hi _ hp)
    · exact h.mem_layout_of_dominates hn.home (h.strict.uses n (Bool.eq_false_iff.2 hphi)
        (Bool.eq_false_iff.2 hb) a ha)

/-- **An operand of a node that is needed is needed.** -/
theorem selected_of_mem_operands (hn : g.Selected dead n) (ha : a ∈ g.operands n) :
    g.Selected dead a := by
  refine ⟨h.strict.live n a ha, h.home_of_mem_operands hn ha, ?_⟩
  have hf := h.strict.formed a
  by_cases hb : (g.kind n).isBlock = true
  · exact hf.whole (isShareable_eq_false_of_isTerminator (h.jumps n hb a ha))
  by_cases hp : (g.kind n).isProj = true
  · obtain ⟨channel, hk⟩ := exists_eq_proj hp
    rcases ((h.strict.formed n).output channel hk a ha).2 with htrap | ⟨-, hstart⟩
    · exact hf.whole (isShareable_eq_false_of_mayTrap htrap)
    · exact hf.whole (by rw [hstart]; rfl)
  · obtain ⟨index, hi⟩ := mem_iff_getElem?.1 ha
    cases ht : (g.kind n).takes index with
    | some channel => exact hf.whole_of_fits (h.strict.typed n index a hi channel ht)
    | none =>
      have hnil : g.operands n = [] := by
        rcases arity?_of_takes ht (Bool.eq_false_iff.2 hb) (Bool.eq_false_iff.2 hp)
          with hz | hu
        · exact length_eq_zero_iff.1 (hn.whole 0 hz)
        · exact (h.strict.formed n).bare hu
      exact absurd (hnil ▸ ha) not_mem_nil

theorem selected_of_reach (hn : g.Selected dead n) (hr : Walk.Reach g.next n a) :
    g.Selected dead a := by
  induction hr with
  | refl => exact hn
  | @tail b c _ hnext ih =>
    unfold next at hnext
    split at hnext
    · exact h.selected_of_mem_operands ih hnext
    · rcases mem_append.1 hnext with hm | hm
      · exact h.selected_of_mem_operands ih hm
      · exact mem_singleton.1 hm ▸ h.selected_block ih.home

end Complete

end Graph

/-! ## The schedule -/

namespace Schedule

variable {g : Graph} {dead : NodeId → Prop} {s : Schedule} {ends layout : List NodeId}
  {n a t block : NodeId}

theorem mem_ends (h : List.Forall₂ (fun block t => g.terminator? block = some t) layout ends) :
    t ∈ ends ↔ ∃ block ∈ layout, g.terminator? block = some t := by
  induction h with
  | nil => simp
  | @cons block end' layout ends hend _ ih => simp [ih, hend, eq_comm]

section

variable (h : g.Complete dead)
  (hends : List.Forall₂ (fun block t => g.terminator? block = some t) g.layout ends)

include h hends

/-- All that the ends of the laid-out blocks lead to is needed. -/
theorem selected_of_mem_postorder (hn : n ∈ g.postorder ends) : g.Selected dead n := by
  obtain ⟨t, ht, hr⟩ := Walk.reach_of_mem_postorder hn
  obtain ⟨block, hb, hend⟩ := (mem_ends hends).1 ht
  obtain ⟨hterm, rfl⟩ := Graph.terminator?_eq_some hend
  exact h.selected_of_reach (h.selected_terminator hterm hb) hr

/-- **A complete graph whose laid-out blocks have ends is scheduled.** -/
theorem exists_build : ∃ s, build g = .ok s := by
  refine ⟨_, Except.bind_eq_ok.2 ⟨ends, terminators_eq_ok.2 hends, Except.bind_eq_ok.2
    ⟨(), Except.forM_eq_ok.2 fun n hn => checkArity_eq_ok.2 ?_, rfl⟩⟩⟩
  obtain ⟨hn, hphi⟩ := mem_filter.1 hn
  have hmem := (mem_filter.1 (contains_iff_mem.1 (mem_filter.1 hn).2)).1
  have hselected := selected_of_mem_postorder h hends hmem
  refine h.arity n (isPhi_of_isValuePhi hphi) hselected.live ?_
  exact (h.reaches_of_mem_layout hselected.home).2.2

end

theorem mem_scheduled_iff : n ∈ s.scheduled g ↔ n < g.size ∧ n ∈ s.postorder := by
  simp [scheduled, Graph.ids]

namespace Built

variable (hs : s.Built g ends) (h : g.Complete dead)

include hs h

/-- What is scheduled is what the ends of blocks lead to. -/
theorem postorder_eq_postorder : s.postorder = g.postorder ends := by
  rw [hs.postorder_eq]
  refine filter_eq_self.2 fun n hn => contains_iff_mem.2 ?_
  exact (selected_of_mem_postorder h hs.terminators hn).home

theorem selected (hn : n ∈ s.scheduled g) : g.Selected dead n :=
  selected_of_mem_postorder h hs.terminators
    (hs.postorder_eq_postorder h ▸ (mem_scheduled_iff.1 hn).2)

theorem mem_scheduled_of_reach (ht : t ∈ ends) (hr : Walk.Reach g.next t n) :
    n ∈ s.scheduled g := by
  have hlt : ∀ {t}, t ∈ ends → t < g.size := fun ht => by
    obtain ⟨block, -, hterm⟩ := (mem_ends hs.terminators).1 ht
    exact Builder.lt_of_isTerminator (Graph.terminator?_eq_some hterm).1
  have hi : ∀ {n}, n ∈ g.ids ↔ n < g.size := mem_range
  refine mem_scheduled_iff.2 ⟨?_, hs.postorder_eq_postorder h ▸ ?_⟩
  · induction hr with
    | refl => exact hlt ht
    | tail _ hn ih => exact hi.1 (h.closed.next_subset ih hn)
  · exact Walk.mem_postorder_of_reach g.ids (fun x hx => h.closed.next_subset (hi.1 hx))
      (fun x hx => hi.2 (hlt hx)) length_range.le ht hr

/-- What a scheduled node depends on is scheduled. -/
theorem mem_scheduled_of_mem_operands (hn : n ∈ s.scheduled g) (ha : a ∈ g.operands n) :
    a ∈ s.scheduled g := by
  obtain ⟨t, ht, hr⟩ := Walk.reach_of_mem_postorder
    (hs.postorder_eq_postorder h ▸ (mem_scheduled_iff.1 hn).2)
  exact hs.mem_scheduled_of_reach h ht (hr.tail (Graph.mem_next ha))

theorem mem_scheduled_of_mem_ends (ht : t ∈ ends) : t ∈ s.scheduled g :=
  hs.mem_scheduled_of_reach h ht .refl

end Built

end Schedule

end SsaCompiler
