import SsaCompiler.Proofs.Builder.Course
import SsaCompiler.Proofs.Graph.Outcome

/-!
# The meaning of a script

A name of a script has a **meaning** along a path of the script (`Script.Means`): an
operation is computed from the meanings of what it uses, a choice takes what its
condition chooses, a read has the meaning of the write that reaches it, and it is 0 if
there is none. Nothing of this depends on the answers.

* In a script that keeps to the protocol, a name means something wherever the block for
  which it was asked dominates (`Script.Orderly.exists_means`).
* In every replay, what stands for the answer has that outcome (`Script.Course.evaluates`).

So a graph in which equal nodes are shared and one in which they are not have the same
blocks and edges, and the same outcomes.
-/

namespace SsaCompiler

open List Graph

open Builder (Request)

variable {path path' : Path} {value n : NodeId}

/-! ## Requests for values -/

namespace Builder.Request

/-- What a request computes from all that it uses. -/
def computes : Request → Option Kind
  | constInt value => some (.constInt value)
  | constBool value => some (.constBool value)
  | undefined => some .undefined
  | binary op _ _ => some (.binary op)
  | compare op _ _ => some (.compare op)
  | _ => none

variable {r : Request} {kind : Kind}

theorem isEager_of_computes (h : r.computes = some kind) : kind.isEager := by
  cases r <;> cases h <;> rfl

theorem length_uses_of_computes (h : r.computes = some kind) :
    r.uses.length = kind.argumentCount := by
  cases r <;> cases h <;> rfl

/-- What is computed is a node that may be shared, or an operation that may trap. -/
theorem cases_of_computes (h : r.computes = some kind) : r.kind? = some kind ∨
    ∃ op lhs rhs, r = .binary op lhs rhs ∧ op.hasEffect ∧ kind = .binary op := by
  cases r with
  | binary op lhs rhs =>
    cases h
    cases hop : op.hasEffect with
    | false => exact .inl (by simp [kind?, hop])
    | true => exact .inr ⟨op, lhs, rhs, rfl, hop, rfl⟩
  | constInt | constBool | undefined | compare => exact .inl h
  | _ => cases h

theorem cases_of_answers_value (h : r.answers = some .value) : (∃ kind, r.computes = some kind) ∨
    (∃ cond ifTrue ifFalse, r = .condValue cond ifTrue ifFalse) ∨
    ∃ name block, r = .read (.var name) block := by
  cases r with
  | constInt | constBool | undefined | binary | compare => exact .inl ⟨_, rfl⟩
  | condValue cond ifTrue ifFalse => exact .inr (.inl ⟨cond, ifTrue, ifFalse, rfl⟩)
  | read slot block =>
    cases slot with
    | var name => exact .inr (.inr ⟨name, block, rfl⟩)
    | effect => cases h
  | _ => cases h

theorem site_eq_home {a : NodeId} {channel : Channel} (current : NodeId)
    (h : r.answers = some channel) (ha : a ∈ r.uses) : r.takes = .value ∧
      r.site current = r.home current := by
  cases r with
  | binary | compare | condValue => exact ⟨rfl, rfl⟩
  | constInt | constBool | undefined | read => cases ha
  | _ => cases h

end Builder.Request

/-! ## Writes that reach a point -/

theorem reachingWrite_eq_some {written : NodeId → Option NodeId}
    (h : reachingWrite written path = some (value, path')) :
    path' <:+ path ∧ written (Path.last path') = some value := by
  induction path with
  | nil =>
    obtain ⟨_, hv, he⟩ := Option.map_eq_some_iff.1 h
    cases he
    exact ⟨suffix_refl _, hv⟩
  | cons edge path ih =>
    unfold reachingWrite at h
    split at h
    · rename_i hv
      cases h
      exact ⟨suffix_refl _, hv⟩
    · exact ⟨(ih h).1.trans (suffix_cons edge path), (ih h).2⟩

/-- **The write that reaches a point** was made before in the block, or at the end of a
shorter path. -/
theorem reachingAt_eq_some {sofar all : NodeId → Option NodeId}
    (h : reachingAt sofar all path = some (value, path')) :
    (path' = path ∧ sofar (Path.last path) = some value) ∨
      (path' <:+ path ∧ path'.length < path.length ∧ all (Path.last path') = some value) := by
  unfold reachingAt at h
  split at h
  · rename_i hv
    cases h
    exact .inl ⟨rfl, hv⟩
  · cases h
  · obtain ⟨hsuffix, hv⟩ := reachingWrite_eq_some h
    exact .inr ⟨hsuffix.trans (suffix_cons _ _), Nat.lt_succ_of_le hsuffix.length_le, hv⟩

theorem Path.upTo_of_suffix {steps : Nat} (h : path' <:+ path) (hle : steps ≤ path'.length) :
    path.upTo steps = path'.upTo steps := by
  obtain ⟨rest, rfl⟩ := h
  unfold Path.upTo
  rw [length_append, Nat.add_sub_assoc hle, drop_append, drop_eq_nil_of_le (by omega),
    Nat.add_sub_cancel_left]
  rfl

namespace Script

variable {script : Script} {path path' : Path} {edge : NodeId × Nat} {name value a i : NodeId}
  {r : Request} {kind : Kind} {x : String} {block : NodeId}

/-! ## Where names are defined -/

/-- **A name is defined at the end of a path**: it stands for a value, and the block for
which that was asked dominates the last block. -/
structure Defined (script : Script) (path : Path) (name : NodeId) : Prop where
  isPath : IsPath script.preds path
  answers : script.Answers name .value
  dominates : Dominates script.preds (script.place name) (Path.last path)

theorem Defined.of_edge (h : script.Defined (edge :: path) name)
    (hne : script.place name ≠ edge.1) : script.Defined path name := by
  cases h.isPath with
  | cons hpath he => exact ⟨hpath, h.answers, h.dominates.of_edge hne he⟩

section Orderly

variable (hs : script.Orderly)

include hs

theorem Defined.isBlock_place (h : script.Defined path name) : script.IsBlock (script.place name) :=
  hs.isBlock_of_visits h.isPath (h.dominates path h.isPath rfl)

theorem Defined.of_uses (h : script.Defined path (i + 4)) (hr : script[i]? = some r)
    (hlast : Path.last path = script.place (i + 4)) (ha : a ∈ r.uses) :
    script.Defined path a ∧ a < i + 4 := by
  obtain ⟨r', hr', hanswers⟩ := h.answers
  cases hr.symm.trans hr'
  obtain ⟨ht, hsite⟩ := Request.site_eq_home (current (script.take i)) hanswers ha
  have hk := hs i r hr
  obtain ⟨huse, hlt⟩ := (hk.uses a ha).of_take
  refine ⟨⟨h.isPath, ht ▸ huse, ?_⟩, hlt⟩
  rw [hlast, place_eq hr, ← hsite]
  exact hk.dominated a ha

theorem Orderly.defined_of_write (hpath : IsPath script.preds path)
    (hr : script[i]? = some (.write (.var x) (Path.last path) value)) :
    script.Defined path value ∧ value < i + 4 := by
  have hk := hs i _ hr
  have hm : value ∈ (Request.write (.var x) (Path.last path) value).uses :=
    mem_singleton_self _
  obtain ⟨huse, hlt⟩ := (hk.uses value hm).of_take
  exact ⟨⟨hpath, huse, hk.dominated value hm⟩, hlt⟩

/-- **What reaches a read is defined where it was written**, and that is on a shorter
path or it is older than the read. -/
theorem Defined.of_reachingAt (h : script.Defined path (i + 4))
    (hreach : reachingAt (lastWrite (script.take i) x) (lastWrite script x) path =
      some (value, path')) :
    path' <:+ path ∧ script.Defined path' value ∧
      (path'.length < path.length ∨ path' = path ∧ value < i + 4) := by
  rcases reachingAt_eq_some hreach with ⟨rfl, hw⟩ | ⟨hsuffix, hl, hw⟩
  · obtain ⟨j, hr⟩ := mem_iff_getElem?.1 (mem_of_lastWrite hw)
    rw [getElem?_take] at hr
    split at hr
    · rename_i hj
      obtain ⟨hd, hlt⟩ := hs.defined_of_write h.isPath hr
      exact ⟨suffix_refl _, hd, .inr ⟨rfl, hlt.trans (Nat.add_lt_add_right hj 4)⟩⟩
    · cases hr
  · obtain ⟨j, hr⟩ := mem_iff_getElem?.1 (mem_of_lastWrite hw)
    exact ⟨hsuffix, (hs.defined_of_write (h.isPath.of_suffix hsuffix) hr).1, .inl hl⟩

end Orderly

/-! ## Meaning -/

/-- **A name means something at the end of a path**: a word, or a trap. -/
inductive Means (script : Script) : Path → NodeId → Option Word → Prop
  | pass {edge : NodeId × Nat} {path : Path} {name : NodeId} {w : Option Word}
      (hne : script.place name ≠ edge.1) (h : Means script path name w) :
      Means script (edge :: path) name w
  | compute {path : Path} {i : Nat} {r : Request} {kind : Kind} {V : NodeId → Option Word}
      (hr : script[i]? = some r) (hlast : Path.last path = script.place (i + 4))
      (hkind : r.computes = some kind) (huses : ∀ a ∈ r.uses, Means script path a (V a)) :
      Means script path (i + 4) (kind.outcome (r.uses.map V))
  | choose {path : Path} {i : Nat} {cond ifTrue ifFalse : NodeId} {c : Word} {w : Option Word}
      (hr : script[i]? = some (.condValue cond ifTrue ifFalse))
      (hlast : Path.last path = script.place (i + 4)) (hcond : Means script path cond (some c))
      (h : Means script path (if c ≠ 0 then ifTrue else ifFalse) w) :
      Means script path (i + 4) w
  | stuck {path : Path} {i : Nat} {cond ifTrue ifFalse : NodeId}
      (hr : script[i]? = some (.condValue cond ifTrue ifFalse))
      (hlast : Path.last path = script.place (i + 4)) (hcond : Means script path cond none) :
      Means script path (i + 4) none
  | read {path path' : Path} {i : Nat} {x : String} {block value : NodeId} {w : Option Word}
      (hr : script[i]? = some (.read (.var x) block)) (hlast : Path.last path = block)
      (hreach : reachingAt (lastWrite (script.take i) x) (lastWrite script x) path =
        some (value, path'))
      (h : Means script path' value w) : Means script path (i + 4) w
  | unset {path : Path} {i : Nat} {x : String} {block : NodeId}
      (hr : script[i]? = some (.read (.var x) block)) (hlast : Path.last path = block)
      (hreach : reachingAt (lastWrite (script.take i) x) (lastWrite script x) path = none) :
      Means script path (i + 4) (some 0)

/-- **A name means something wherever it is defined.** What it is computed from is on a
shorter path, or it is older. -/
theorem Orderly.exists_means (hs : script.Orderly) (h : script.Defined path name) :
    ∃ w, script.Means path name w := by
  induction hl : path.length using Nat.strongRecOn generalizing path name with
  | ind k ih =>
  induction name using Nat.strongRecOn with
  | ind name ih' =>
  by_cases hlast : Path.last path = script.place name
  · obtain ⟨r, hr, hanswers⟩ := h.answers
    obtain ⟨i, rfl, hr⟩ := exists_of_step? hr
    have hu : ∀ a ∈ r.uses, ∃ w, script.Means path a w := fun a ha =>
      have ⟨hd, hlt⟩ := h.of_uses hs hr hlast ha
      ih' a hlt hd
    rcases Request.cases_of_answers_value hanswers with ⟨kind, hk⟩ |
      ⟨cond, ifTrue, ifFalse, rfl⟩ | ⟨x, block, rfl⟩
    · choose! V hV using hu
      exact ⟨_, .compute hr hlast hk hV⟩
    · obtain ⟨w, hc⟩ := hu cond (by simp [Request.uses])
      cases w with
      | none => exact ⟨none, .stuck hr hlast hc⟩
      | some c =>
        obtain ⟨w, hw⟩ := hu (if c ≠ 0 then ifTrue else ifFalse) (by
          split <;> simp [Request.uses])
        exact ⟨w, .choose hr hlast hc hw⟩
    · rw [place_eq hr] at hlast
      cases hreach : reachingAt (lastWrite (script.take i) x) (lastWrite script x) path with
      | none => exact ⟨some 0, .unset hr hlast hreach⟩
      | some found =>
        obtain ⟨value, path'⟩ := found
        obtain ⟨-, hd, hlt | ⟨rfl, hlt⟩⟩ := h.of_reachingAt hs hreach
        · obtain ⟨w, hw⟩ := ih _ (hl ▸ hlt) hd rfl
          exact ⟨w, .read hr hlast hreach hw⟩
        · obtain ⟨w, hw⟩ := ih' value hlt hd
          exact ⟨w, .read hr hlast hreach hw⟩
  · -- The last block is not the one for which the name was asked.
    cases path with
    | nil => exact absurd (Eq.symm (h.dominates [] h.isPath rfl)) hlast
    | cons edge path =>
      obtain ⟨w, hw⟩ := ih path.length (hl ▸ Nat.lt_succ_self _) (h.of_edge (Ne.symm hlast)) rfl
      exact ⟨w, .pass (Ne.symm hlast) hw⟩

/-! ## Replays give every name its meaning -/

namespace Course

variable {function : String} {sharing : Bool} {ν : NodeId → NodeId} {stage : Nat → Stage}
  {w : Option Word} (h : Course script function sharing ν stage)

include h

theorem resolve_of_isPhi_eq_false (hphi : ((script.last stage).graph.kind n).isPhi = false) :
    (script.last stage).resolve n = n :=
  have hwf := h.wf (Nat.le_refl script.length)
  Builder.resolve_of_stands hwf (hwf.stands_of_isPhi_eq_false hphi)

theorem blockOf_eq_last (hlast : Path.last path = script.place name)
    (hb : (script.last stage).graph.blockOf n = ν (script.place name)) :
    (script.last stage).graph.blockOf n = Path.last (path.rename ν) := by
  rw [hb, Path.last_rename h.draws.start, hlast]

/-- **What is computed** has the outcome of the computation. -/
theorem evaluates_of_computes {words : List (Option Word)} (hr : script[i]? = some r)
    (hlast : Path.last path = script.place (i + 4)) (hkind : r.computes = some kind)
    (hargs : List.Forall₂ (fun a => (script.last stage).graph.Evaluates (path.rename ν)
      ((script.last stage).resolve (ν a))) r.uses words) :
    (script.last stage).graph.Evaluates (path.rename ν)
      ((script.last stage).resolve (ν (i + 4))) (kind.outcome words) := by
  have heager := Request.isEager_of_computes hkind
  have hc := Request.length_uses_of_computes hkind
  rcases Request.cases_of_computes hkind with hshared | ⟨op, lhs, rhs, rfl, hop, rfl⟩
  · obtain ⟨-, hk, hb, ops, hp, hsame, hops⟩ := h.made hr hshared
    have hl : ops.length = kind.argumentCount := by
      rw [hp.length_eq, length_map, hc]
    have ha : (script.last stage).graph.arguments (ν (i + 4)) =
        ops.map (script.last stage).resolve := by
      unfold Graph.arguments
      rw [hk, hops, take_of_length_le (by rw [length_map, hl])]
    rw [h.resolve_of_isPhi_eq_false (hk ▸ Kind.isPhi_eq_false_of_isEager heager)]
    -- The operands may have been exchanged.
    obtain ⟨words', hw', he⟩ := Kind.exists_outcome_of_perm (R := fun n =>
      (script.last stage).graph.Evaluates (path.rename ν) ((script.last stage).resolve n))
      hp hsame (by rw [length_map, hc]) (List.forall₂_map_left_iff.2 hargs)
    have hevaluates := evaluates_of_forall₂ (h.blockOf_eq_last hlast hb)
      (hk ▸ heager) (by rw [ha, hk, length_map, hl])
      (ha ▸ List.forall₂_map_left_iff.2 hw')
    rwa [hk, he] at hevaluates
  · obtain ⟨-, hk, hb, d, effect, hops, hkindD, hblockD, ho⟩ := h.divided hr hop
    have hd : (script.last stage).graph.Evaluates (path.rename ν) d
        ((Kind.binary op).outcome words) := by
      have ha : (script.last stage).graph.arguments d =
          [(script.last stage).resolve (ν lhs), (script.last stage).resolve (ν rhs)] := by
        unfold Graph.arguments
        rw [hkindD, ho]
        rfl
      rw [← hkindD]
      refine evaluates_of_forall₂ (h.blockOf_eq_last hlast hblockD) (by rw [hkindD]; rfl)
        (by rw [ha, hkindD]; rfl) ?_
      rw [ha]
      cases hargs with
      | cons hlhs hrest =>
      cases hrest with
      | cons hrhs hnil => exact .cons hlhs (.cons hrhs (by cases hnil; exact .nil))
    have ha : (script.last stage).graph.arguments (ν (i + 4)) = [d] := by
      unfold Graph.arguments
      rw [hk, hops]
      rfl
    rw [h.resolve_of_isPhi_eq_false (by rw [hk]; rfl)]
    have hevaluates := evaluates_of_forall₂ (h.blockOf_eq_last hlast hb)
      (by rw [hk]; rfl) (by rw [ha, hk]; rfl)
      (ha ▸ List.Forall₂.cons hd .nil)
    rwa [hk, Kind.outcome_value] at hevaluates

/-- **A choice** has what stands for its operands. -/
theorem chosen {cond ifTrue ifFalse : NodeId}
    (hr : script[i]? = some (.condValue cond ifTrue ifFalse))
    (hlast : Path.last path = script.place (i + 4)) :
    (script.last stage).resolve (ν (i + 4)) = ν (i + 4) ∧
      (script.last stage).graph.blockOf (ν (i + 4)) = Path.last (path.rename ν) ∧
      (script.last stage).graph.kind (ν (i + 4)) = .condValue ∧
      (script.last stage).graph.operands (ν (i + 4)) = [(script.last stage).resolve (ν cond),
        (script.last stage).resolve (ν ifTrue), (script.last stage).resolve (ν ifFalse)] := by
  obtain ⟨-, hk, hb, ops, -, hsame, hops⟩ := h.made hr rfl
  refine ⟨h.resolve_of_isPhi_eq_false (by rw [hk]; rfl), h.blockOf_eq_last hlast hb, hk, ?_⟩
  rw [hops, hsame rfl]
  rfl

section

variable (hr : script[i]? = some (.read (.var x) block)) (hpath : IsPath script.preds path)
  (hlast : Path.last path = block)

include hr hpath hlast

/-- **What is read** has the outcome of what was written. -/
theorem evaluates_of_read (hsuffix : path' <:+ path)
    (hreach : reachingAt (lastWrite (script.take i) x) (lastWrite script x) path =
      some (value, path'))
    (hv : (script.last stage).graph.Evaluates (path'.rename ν)
      ((script.last stage).resolve (ν value)) w) :
    (script.last stage).graph.Evaluates (path.rename ν)
      ((script.last stage).resolve (ν (i + 4))) w := by
  obtain ⟨origin, hc, ho⟩ := h.read_origin hr hpath hlast
  rw [hreach] at ho
  have hrename : path'.rename ν <:+ path.rename ν := hsuffix.map _
  rw [Graph.evaluates_iff_of_chase hc, Path.upTo_of_suffix hrename (Graph.le_length_of_chase ho)]
  exact (evaluates_iff_of_chase ho).1 hv

/-- **What is read without being written** is 0. -/
theorem evaluates_of_unset
    (hreach : reachingAt (lastWrite (script.take i) x) (lastWrite script x) path = none) :
    (script.last stage).graph.Evaluates (path.rename ν)
      ((script.last stage).resolve (ν (i + 4))) (some 0) := by
  obtain ⟨⟨n, steps⟩, hc, ho⟩ := h.read_origin hr hpath hlast
  rw [hreach] at ho
  obtain ⟨rfl, -, hk, hb⟩ := ho
  have ha : (script.last stage).graph.arguments n = [] := by
    unfold Graph.arguments
    rw [hk]
    rfl
  have hargs : List.Forall₂ ((script.last stage).graph.Evaluates [])
      ((script.last stage).graph.arguments n) [] := ha ▸ .nil
  have he := Graph.evaluates_of_forall₂ hb (by rw [hk]; rfl)
    (by rw [ha, hk]; rfl) hargs
  rw [hk] at he
  rw [Graph.evaluates_iff_of_chase hc]
  show Graph.Evaluates _ (List.drop (List.length _ - 0) _) n _
  rw [Nat.sub_zero, drop_length]
  exact he

end

/-- **In every replay, what stands for an answer has the outcome that its name means.** -/
theorem evaluates (hm : script.Means path name w) (hd : script.Defined path name) :
    (script.last stage).graph.Evaluates (path.rename ν)
      ((script.last stage).resolve (ν name)) w := by
  induction hm with
  | @pass edge path name w hne _ ih =>
    refine .pass (fun he => ?_) (ih (hd.of_edge hne))
    -- Otherwise the block of the node and the one it was asked for dominate each other.
    have hb := h.orderly.isBlock_last hd.isPath
    have hdom := h.dominates_place hd.answers
    rw [he] at hdom
    refine not_isPath_of_dominates hdom
      (h.draws.dominates h.orderly hd.dominates hb) (fun he => hne ?_)
      (h.draws.isPath h.orderly hd.isPath) rfl
    exact h.draws.injective _ _ (hd.isBlock_place h.orderly) hb he.symm
  | compute hr hlast hk _ ih =>
    refine h.evaluates_of_computes hr hlast hk (List.forall₂_map_right_iff.2 ?_)
    exact List.forall₂_same.2 fun a ha => ih a ha (hd.of_uses h.orderly hr hlast ha).1
  | choose hr hlast _ _ ihcond ih =>
    have hu := fun a ha => (hd.of_uses h.orderly (a := a) hr hlast ha).1
    obtain ⟨hresolve, hb, hk, ho⟩ := h.chosen hr hlast
    rw [hresolve]
    refine .choose hb hk ho (ihcond (hu _ (by simp [Request.uses]))) ?_
    have hchosen := ih (hu _ (by split <;> simp [Request.uses]))
    split <;> simp_all
  | stuck hr hlast _ ihcond =>
    obtain ⟨hresolve, hb, hk, ho⟩ := h.chosen hr hlast
    rw [hresolve]
    exact .stuck hb hk ho
      (ihcond (hd.of_uses h.orderly hr hlast (by simp [Request.uses])).1)
  | read hr hlast hreach _ ih =>
    obtain ⟨hsuffix, hv, -⟩ := hd.of_reachingAt h.orderly hreach
    exact h.evaluates_of_read hr hd.isPath hlast hsuffix hreach (ih hv)
  | unset hr hlast hreach => exact h.evaluates_of_unset hr hd.isPath hlast hreach

end Course

/-! ## Sharing -/

/-- **The jumps of a script** as they are in a builder. -/
def Ends (script : Script) (ν : NodeId → NodeId) (b : Builder) : Prop :=
  ∀ i (r : Request) kind, script[i]? = some r → (r.rename ν).exit? = some kind →
    b.graph.kind (ν (i + 4)) = kind ∧ b.graph.blockOf (ν (i + 4)) = ν (script.place (i + 4)) ∧
      b.graph.operands (ν (i + 4)) = (r.uses.map ν).map b.resolve

/-- **What a run replay comes to**: the blocks, edges and jumps of the script, and the
meaning of every name. -/
theorem Orderly.replay?_spec (hs : script.Orderly) {function : String} {sharing : Bool}
    {nodes : List NodeId} {b : Builder}
    (h : script.replay? function sharing = some (nodes, b)) :
    script.Draws (named nodes) b.graph ∧ script.Ends (named nodes) b ∧
      ∀ path name w, script.Defined path name → script.Means path name w →
        b.graph.Evaluates (path.rename (named nodes)) (b.resolve (named nodes name)) w := by
  obtain ⟨builder, hreplay, rfl⟩ := exists_replay hs h
  obtain ⟨stage, hc, hstage⟩ := hreplay.exists_course hs
  rw [← hstage script.length le_rfl]
  exact ⟨hc.draws, fun i r kind hr he => hc.left hr he, fun path name w hd hm => hc.evaluates hm hd⟩

/-- **Sharing equal nodes does not change the meaning.** A script that keeps to the
protocol is replayed with equal nodes shared and without. Then both graphs have the
blocks and edges of the script, and the same jumps. Along every path of the script and
for every value that is asked for where the path leads or in a block that dominates it,
there is one outcome, a word or a trap, which what stands for the answer has in both. -/
theorem sharing_keeps_outcomes {function : String} {nodes nodes' : List NodeId} {b b' : Builder}
    (hs : script.Orderly) (h : script.replay? function true = some (nodes, b))
    (h' : script.replay? function false = some (nodes', b')) :
    (script.Draws (named nodes) b.graph ∧ script.Draws (named nodes') b'.graph) ∧
    (script.Ends (named nodes) b ∧ script.Ends (named nodes') b') ∧
    ∀ path name, script.Defined path name → ∃ w : Option Word, ∀ w',
      (b.graph.Evaluates (path.rename (named nodes)) (b.resolve (named nodes name)) w' ↔ w' = w) ∧
      (b'.graph.Evaluates (path.rename (named nodes')) (b'.resolve (named nodes' name)) w' ↔
        w' = w) := by
  obtain ⟨hdraws, hends, hmeans⟩ := hs.replay?_spec h
  obtain ⟨hdraws', hends', hmeans'⟩ := hs.replay?_spec h'
  refine ⟨⟨hdraws, hdraws'⟩, ⟨hends, hends'⟩, fun path name hdefined => ?_⟩
  obtain ⟨w, hw⟩ := hs.exists_means hdefined
  have hone := hmeans path name w hdefined hw
  have hone' := hmeans' path name w hdefined hw
  exact ⟨w, fun w' => ⟨⟨fun he => he.unique hone, fun he => he ▸ hone⟩,
    ⟨fun he => he.unique hone', fun he => he ▸ hone'⟩⟩⟩

/-- A loop that sets a variable to the number it had before, so that the merge in its
header can go if equal numbers are shared. What comes after it divides. -/
def countingLoop : Script :=
  [.constInt 1, .write (.var "x") 0 4, .newBlock "header", .jump 6, .enter 6, .read (.var "x") 6,
   .constInt 1, .binary (.arith .add) 9 10, .newBlock "body", .newBlock "exit",
   .condJump 9 12 13, .seals 12, .enter 12, .write (.var "x") 12 10, .jump 6, .seals 6, .seals 13,
   .enter 13, .read (.var "x") 13, .binary (.arith .div) 11 22, .ret 23, .seals 2]

/-- The loop is left in its second round. -/
def countingLoopPath : Path :=
  [(13, 0), (6, 1), (12, 0), (6, 0)]

/-- After the loop was left in the second round, the quotient is the same with the merge
and without. -/
theorem sharing_keeps_quotient_of_countingLoop : ∃ nodes b nodes' b', countingLoop.Orderly ∧
    countingLoop.replay? "f" true = some (nodes, b) ∧
    countingLoop.replay? "f" false = some (nodes', b') ∧
    countingLoop.Defined countingLoopPath 23 ∧
    b.resolve (named nodes 9) = named nodes 4 ∧
    (b'.graph.kind (b'.resolve (named nodes' 9))).isPhi = true ∧
    ∃ w, b.graph.Evaluates (countingLoopPath.rename (named nodes)) (b.resolve (named nodes 23)) w ∧
      b'.graph.Evaluates (countingLoopPath.rename (named nodes'))
        (b'.resolve (named nodes' 23)) w := by
  have hs : countingLoop.Orderly := orderly_of_near (by decide +kernel)
  have hshared : ((countingLoop.replay? "f" true).any fun run =>
      run.2.resolve (named run.1 9) = named run.1 4) = true := by decide +kernel
  have hkept : ((countingLoop.replay? "f" false).any fun run =>
      (run.2.graph.kind (run.2.resolve (named run.1 9))).isPhi) = true := by decide +kernel
  obtain ⟨⟨nodes, b⟩, h, hmerge⟩ := (Option.any_eq_true _ _).1 hshared
  obtain ⟨⟨nodes', b'⟩, h', hmerge'⟩ := (Option.any_eq_true _ _).1 hkept
  have hpath : IsPath countingLoop.preds countingLoopPath :=
    .cons (.cons (.cons (.cons .nil rfl) rfl) rfl) rfl
  have hdefined : countingLoop.Defined countingLoopPath 23 := ⟨hpath, by decide, .refl _ _⟩
  obtain ⟨-, -, hsame⟩ := sharing_keeps_outcomes hs h h'
  obtain ⟨w, hw⟩ := hsame countingLoopPath 23 hdefined
  exact ⟨nodes, b, nodes', b', hs, h, h', hdefined, of_decide_eq_true hmerge, hmerge', w,
    (hw w).1.2 rfl, (hw w).2.2 rfl⟩

end Script

end SsaCompiler
