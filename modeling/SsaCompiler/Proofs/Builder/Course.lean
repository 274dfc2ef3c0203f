import SsaCompiler.Proofs.Builder.Replay

/-!
# What a replay answers

The builders of a replay are the stages of a construction (`Script.Course`), and its
last stage gives the blueprint by which they are sound. So it can be told what every
answer is in the finished graph.

* A node that may be shared has the kind that was asked for and what stands for its
  operands, perhaps in another order (`Course.made`).
* An operation that may trap has what stands for its operands (`Course.divided`).
* What is read leads back to the write that reaches the read (`Course.read_origin`).

An answer lies in a block that dominates the one it was asked for
(`Course.dominates_place`).
-/

namespace SsaCompiler.Script

open List Builder Stage Request

open Builder (Request)

variable {script : Script} {function x : String} {sharing : Bool} {ν : NodeId → NodeId}
  {stage : Nat → Stage} {r : Request} {i j : Nat} {name block : NodeId} {kind : Kind}
  {channel : Channel}

/-- **The stages that a replay goes through.** -/
structure Course (script : Script) (function : String) (sharing : Bool) (ν : NodeId → NodeId)
    (stage : Nat → Stage) : Prop where
  orderly : script.Orderly
  known : Known ν
  first : stage 0 = .first function sharing
  tracks : ∀ i ≤ script.length, Tracks (script.take i) ν (stage i).toBuilder
  ongoing : ∀ i ≤ script.length, (stage i).toBuilder.Ongoing true
  reply : ∀ i r, script[i]? = some r → ∃ n,
    (stage i).toBuilder.Reply (r.rename ν) n (stage (i + 1)).toBuilder ∧ ∀ m ∈ n, ν (i + 4) = m
  answers : ∀ i r, script[i]? = some r → (r.rename ν).Timely (stage i).toBuilder ∧
    Stage.Answers (r.rename ν) (stage i) (stage (i + 1))
  stands : ∀ i r, script[i]? = some r → ∀ name ∈ r.uses, (stage i).Stands (ν name)

/-- **A replay goes through stages.** -/
theorem Replay.exists_course {b : Nat → Builder} (h : script.Replay function sharing ν b)
    (hs : script.Orderly) : ∃ stage, Course script function sharing ν stage ∧
      ∀ i ≤ script.length, (stage i).toBuilder = b i := by
  have htimely : ∀ i (r : Request), script[i]? = some r → (r.rename ν).Timely (b i) := fun i r hr =>
    have hi := Nat.le_of_lt (List.getElem?_eq_some_iff.1 hr).1
    (h.tracks hs hi).1.timely h.known (hs.isBlock_current hi) (fun _ => hs.isBlock_of_isSealed)
      (hs i r hr)
  -- One stage after the other.
  have hstages : ∀ k ≤ script.length, ∃ stage : Nat → Stage, stage 0 = .first function sharing ∧
      (∀ i ≤ k, (stage i).toBuilder = b i) ∧ ∀ i < k, ∀ r, script[i]? = some r →
        Stage.Answers (r.rename ν) (stage i) (stage (i + 1)) := by
    intro k hk
    induction k with
    | zero =>
      refine ⟨fun _ => .first function sharing, rfl, fun i hi => ?_, fun i hi => absurd hi nofun⟩
      rw [Nat.le_zero.1 hi, h.start]
      rfl
    | succ k ih =>
      obtain ⟨stage, hf, hb, ha⟩ := ih (Nat.le_of_lt hk)
      have hr := getElem?_eq_getElem hk
      obtain ⟨n, hanswer, -⟩ := h.answers k _ hr
      have hk' := hb k (Nat.le_refl k)
      obtain ⟨t, ht, hnext⟩ := exists_answer (s := stage k)
        (hk' ▸ (h.tracks hs (Nat.le_of_lt hk)).2) (hk' ▸ htimely k _ hr) (hk' ▸ hanswer)
      refine ⟨fun i => if i ≤ k then stage i else t, hf, fun i hi => ?_, fun i hi r hr' => ?_⟩
      · by_cases hle : i ≤ k
        · simp only [if_pos hle]
          exact hb i hle
        · simp only [if_neg hle]
          rw [hi.antisymm (Nat.lt_of_not_le hle)]
          exact ht
      · simp only [if_pos (Nat.le_of_lt_succ hi)]
        by_cases hlt : i < k
        · rw [if_pos (show i + 1 ≤ k from hlt)]
          exact ha i hlt r hr'
        · obtain rfl := (Nat.le_of_lt_succ hi).antisymm (not_lt.1 hlt)
          cases hr.symm.trans hr'
          rw [if_neg (Nat.not_succ_le_self _)]
          exact hnext
  obtain ⟨stage, hf, hb, ha⟩ := hstages script.length le_rfl
  have hlt : ∀ {i r}, script[i]? = some r → i < script.length := fun hr =>
    (List.getElem?_eq_some_iff.1 hr).1
  refine ⟨stage, ⟨hs, h.known, hf, fun i hi => ?_, fun i hi => ?_, fun i r hr => ?_,
    fun i r hr => ⟨?_, ha i (hlt hr) r hr⟩, fun i r hr => ?_⟩, hb⟩
  · rw [hb i hi]
    exact (h.tracks hs hi).1
  · rw [hb i hi]
    exact (h.tracks hs hi).2
  · obtain ⟨n, hanswer, hn⟩ := h.answers i r hr
    rw [hb i (hlt hr).le, hb (i + 1) (hlt hr)]
    exact ⟨n, reply_of_answer hanswer, hn⟩
  · rw [hb i (hlt hr).le]
    exact htimely i r hr
  · rw [hb i (hlt hr).le]
    exact h.stands i r hr

/-- The last of the stages. -/
abbrev last (script : Script) (stage : Nat → Stage) : Stage :=
  stage script.length

/-- The blueprint that the last stage gives. -/
abbrev plan (script : Script) (stage : Nat → Stage) : Blueprint :=
  (script.last stage).blueprint (fun _ => True) (script.last stage).graph.size

namespace Course

variable (h : Course script function sharing ν stage)

include h

/-! ## The blueprint -/

omit h in
theorem lt_length (hr : script[i]? = some r) : i < script.length :=
  (List.getElem?_eq_some_iff.1 hr).1

theorem wf (hi : i ≤ script.length) : (stage i).WellFormed := (h.ongoing i hi).wf

theorem grows (hij : i ≤ j) (hj : j ≤ script.length) : Stage.Grows (stage i) (stage j) := by
  refine Stage.Steps.grows ?_ (h.wf (hij.trans hj))
  induction j, hij using Nat.le_induction with
  | base => exact .refl
  | succ j hij ih =>
    exact (ih (Nat.le_of_lt hj)).trans (h.answers j _ (List.getElem?_eq_getElem hj)).2.steps

theorem draws : Draws script ν (script.last stage).graph := by
  have ht := h.tracks script.length le_rfl
  rw [take_length] at ht
  exact ht.toDraws

theorem answered (ha : script.Answers name channel) :
    ν name < (script.last stage).graph.size := by
  have ht := h.tracks script.length le_rfl
  rw [take_length] at ht
  exact ht.answered name channel ha

theorem isSealed (hs : script.IsSealed name) : (script.last stage).isSealed (ν name) := by
  have ht := h.tracks script.length le_rfl
  rw [take_length] at ht
  exact (ht.isSealed _).2 ⟨name, hs, rfl⟩

omit h in
theorem fits (channel : Channel) (n : NodeId) : (script.plan stage).Fits channel n := by
  cases channel <;> trivial

theorem agrees (hi : i ≤ script.length) : (stage i).Agrees (script.plan stage) := by
  have hg := h.grows (Nat.zero_le _) le_rfl
  have he : (script.last stage).graph.operands Graph.startBlock = [] := by
    refine (hg.sealedJumps Graph.startBlock ?_ ?_).trans ?_ <;> rw [h.first] <;> rfl
  exact agrees_of_grows (agrees_blueprint (h.wf le_rfl) he
      (fun n _ channel => fits channel n) (fun _ _ => trivial) (fun n channel _ => fits channel n)
      fun _ _ _ channel _ _ => fits channel) (h.grows hi le_rfl) (h.wf hi)

theorem isBlock_site (hr : script[i]? = some r) :
    script.IsBlock (r.site (current (script.take i))) := by
  have hc := (h.orderly.isBlock_current (lt_length hr).le).of_take
  cases r with
  | write slot block value =>
    exact ((h.orderly i _ hr).blocks block (.head _)).of_take
  | _ => exact hc

theorem stage_current (hi : i < script.length) : (stage i).current = ν (current (script.take i)) :=
  (h.tracks i hi.le).current

/-! ## Nodes that are made -/

/-- **What becomes of operands**: in the end there is what stands for them. -/
theorem operands_last {n : NodeId} (hj : j ≤ script.length) (hn : n < (stage j).graph.size)
    (hphi : ((stage j).graph.kind n).isPhi = false)
    (hb : ((stage j).graph.kind n).isBlock = false)
    (hs : ∀ a ∈ (stage j).graph.operands n, (stage j).Stands a) :
    (script.last stage).graph.operands n =
      ((stage j).graph.operands n).map (script.last stage).resolve := by
  obtain ⟨new, hf, hr⟩ := (h.grows hj le_rfl).resolved
  rw [hr n hn hphi hb]
  refine map_congr_left fun a ha => ?_
  rw [resolve_eq_root (h.wf le_rfl).forwards, hf, root_append, (root_of_lookup (hs a ha)).1]

/-- **A node that may be shared** is what was asked for: it has what stands for its
operands, perhaps in another order where that does not matter. -/
theorem made (hr : script[i]? = some r) (hkind : r.kind? = some kind) :
    ν (i + 4) < (stage (i + 1)).graph.size ∧ (script.last stage).graph.kind (ν (i + 4)) = kind ∧
      (script.last stage).graph.blockOf (ν (i + 4)) = ν (script.place (i + 4)) ∧
      ∃ ops, ops.Perm (r.uses.map ν) ∧ (kind.isCommutative = false → ops = r.uses.map ν) ∧
        (script.last stage).graph.operands (ν (i + 4)) = ops.map (script.last stage).resolve := by
  have hi := lt_length hr
  have hwf := h.wf hi.le
  have hg := h.grows hi le_rfl
  obtain ⟨n, hreply, hname⟩ := h.reply i r hr
  obtain ⟨hn, hstage⟩ := hreply.of_kind? ((kind?_rename ν r).trans hkind)
  rw [h.stage_current hi, home_rename ν r (h.known 0 (by decide)), ← place_eq hr,
    uses_rename] at hn hstage
  have hs := isShareable_of_kind? hkind
  have hstands : ∀ a ∈ r.uses.map ν, (stage i).Stands a := fun a ha => by
    obtain ⟨name, hname, rfl⟩ := mem_map.1 ha
    exact h.stands i r hr name hname
  obtain ⟨hlt, hk, hb⟩ :=
    hwf.answer kind (ν (script.place (i + 4))) (r.uses.map ν)
  have hkey : ValueKey.of kind (ν (script.place (i + 4)))
      ((stage (i + 1)).graph.operands (ν (i + 4))) =
        .of kind (ν (script.place (i + 4))) (r.uses.map ν) := by
    rw [hname _ hn, hstage]
    exact hwf.operands_answer kind _ hstands
  have hf : (stage (i + 1)).forwarded = (stage i).forwarded := by rw [hstage]; rfl
  rw [← hstage, ← hname _ hn] at hlt hk hb
  have hp := ValueKey.perm_of_of_eq hkey
  refine ⟨hlt, (hg.kind _ hlt).trans hk, (hg.blockOf _ hlt).trans hb, _, hp, fun hc => ?_, ?_⟩
  · have ho := congrArg ValueKey.operands hkey
    simpa [ValueKey.of, hc] using ho
  · refine h.operands_last hi hlt ?_ ?_ fun a ha => ?_
    · exact (congrArg Kind.isPhi hk).trans (Kind.isPhi_eq_false_of_isShareable hs)
    · exact (congrArg Kind.isBlock hk).trans (Kind.isBlock_eq_false_of_isShareable hs)
    · unfold Builder.Stands
      rw [hf]
      exact hstands a (hp.mem_iff.1 ha)

/-- **A jump** ends the block for which it was asked, goes where the script says and has
what stands for its condition. -/
theorem left (hr : script[i]? = some r) (he : (r.rename ν).exit? = some kind) :
    (script.last stage).graph.kind (ν (i + 4)) = kind ∧
      (script.last stage).graph.blockOf (ν (i + 4)) = ν (script.place (i + 4)) ∧
      (script.last stage).graph.operands (ν (i + 4)) =
        (r.uses.map ν).map (script.last stage).resolve := by
  have hi := lt_length hr
  have hg := h.grows hi le_rfl
  obtain ⟨n, hreply, hn⟩ := h.reply i r hr
  obtain ⟨rfl, hs⟩ := hreply.of_exit? he
  obtain ⟨hterm, hexits, hb⟩ := isTerminator_of_exit? he
  have hanswer : ν (i + 4) = (stage i).graph.size := hn _ rfl
  have hlt : ν (i + 4) < (stage (i + 1)).graph.size := by
    rw [hanswer, hs, size_leave]
    exact Nat.lt_succ_self _
  have hk : (stage (i + 1)).graph.kind (ν (i + 4)) = kind := by
    rw [hs, kind_leave, if_pos hanswer]
  have hp : (stage i).current = ν (script.place (i + 4)) := by
    rw [h.stage_current hi, place_eq hr]
    cases r <;> first | rfl | cases he
  have ho : (stage (i + 1)).graph.operands (ν (i + 4)) = r.uses.map ν := by
    rw [hs, operands_leave, if_pos hanswer, uses_rename]
    intro target ht
    exact lt_of_isBlock ((h.answers i r hr).1.valid.blocks target (hb ▸ hexits ▸ ht))
  refine ⟨(hg.kind _ hlt).trans hk, (hg.blockOf _ hlt).trans ?_, ?_⟩
  · rw [hs, blockOf_leave, if_pos hanswer, hp]
  · rw [h.operands_last hi hlt, ho]
    · rw [hk]
      exact Kind.isPhi_eq_false_of_isTerminator hterm
    · rw [hk]
      exact Kind.isBlock_eq_false_of_isTerminator hterm
    · intro a ha
      rw [ho] at ha
      obtain ⟨name, hn, rfl⟩ := mem_map.1 ha
      rw [hs]
      exact h.stands i r hr name hn

/-- **An operation that may trap** has what stands for its operands, and the answer is
its value. -/
theorem divided {op : BinOp} {lhs rhs : NodeId} (hr : script[i]? = some (.binary op lhs rhs))
    (hop : op.hasEffect) :
    ν (i + 4) < (stage (i + 1)).graph.size ∧
      (script.last stage).graph.kind (ν (i + 4)) = .proj .value ∧
      (script.last stage).graph.blockOf (ν (i + 4)) = ν (script.place (i + 4)) ∧
      ∃ d effect, (script.last stage).graph.operands (ν (i + 4)) = [d] ∧
        (script.last stage).graph.kind d = .binary op ∧
        (script.last stage).graph.blockOf d = ν (script.place (i + 4)) ∧
        (script.last stage).graph.operands d =
          [(script.last stage).resolve (ν lhs), (script.last stage).resolve (ν rhs), effect] := by
  have hi := lt_length hr
  have hwf := h.wf hi.le
  have hwf' := h.wf (Nat.le_refl script.length)
  have hg := h.grows hi le_rfl
  obtain ⟨n, hreply, hn⟩ := h.reply i _ hr
  obtain ⟨effect, c, hread, rfl, hstage⟩ := hreply.of_hasEffect hop
  have hresult := tidy_read hwf (h.ongoing i hi.le).current hread
  -- The stage after the operation is made of the one after the read.
  obtain ⟨s, hs⟩ : ∃ s : Stage, s.toBuilder = c := ⟨⟨c, fun _ _ => none⟩, rfl⟩
  obtain ⟨t, htrapped, ht⟩ : ∃ t, Stage.Trapped op (ν lhs) (ν rhs) effect s t ∧
      t.toBuilder = (stage (i + 1)).toBuilder :=
    ⟨_, trapped_trapping op (ν lhs) (ν rhs) effect s, by rw [hstage, ← hs]; rfl⟩
  have hanswer : ν (i + 4) = s.graph.size + 2 := hs ▸ hn _ rfl
  have hc : s.current = ν (script.place (i + 4)) := by
    rw [place_eq hr, hs, hresult.evolves.current, h.stage_current hi]
    rfl
  obtain ⟨hthree, hkindLast, -, hkindValueLast⟩ := htrapped.grown (u := script.last stage)
    (ht ▸ hg.kind) (ht ▸ hg.blockOf)
  rw [ht, hc] at hthree
  have hlt := fun k hk => (hthree k hk).1
  have hm : s.graph.size < (stage (i + 1)).graph.size := hlt 0 (by decide)
  obtain ⟨-, hkind, -, hkindValue, hoperands, -, ho, -⟩ := htrapped
  rw [ht] at hkind hkindValue hoperands ho
  -- The read has not retired what the operation uses.
  have hf : (stage (i + 1)).forwarded = c.forwarded := by
    rw [hstage, forwarded_trapping]
  have hu : ∀ name ∈ [lhs, rhs], (stage (i + 1)).Stands (ν name) := fun name hn => by
    have hlt := (h.answers i _ hr).1.valid.uses (ν name) (mem_map_of_mem hn)
    unfold Builder.Stands
    rw [hf]
    exact (hresult.evolves.stands _ hlt).2 (h.stands i _ hr name hn)
  have he : (stage (i + 1)).Stands effect := by
    unfold Builder.Stands
    rw [hf]
    exact hresult.value_stands
  rw [hanswer]
  refine ⟨hlt 2 (by decide), hkindValueLast, (hthree 2 (by decide)).2, s.graph.size,
    (script.last stage).resolve effect, ?_, hkindLast, (hthree 0 (by decide)).2, ?_⟩
  · rw [h.operands_last hi (hlt 2 (by decide)) (by rw [hkindValue]; rfl) (by rw [hkindValue]; rfl),
      ho, map_singleton, resolve_of_stands hwf']
    · exact hwf'.stands_of_isPhi_eq_false (by rw [hkindLast]; rfl)
    · rw [ho]
      intro a ha
      rw [mem_singleton.1 ha]
      exact (h.wf hi).stands_of_isPhi_eq_false (by rw [hkind]; rfl)
  · rw [h.operands_last hi hm (by rw [hkind]; rfl) (by rw [hkind]; rfl), hoperands]
    · rfl
    · rw [hoperands]
      simp only [forall_mem_cons] at hu ⊢
      exact ⟨hu.1, hu.2.1, he, forall_mem_nil _⟩


/-! ## Soundness -/

/-- **The stages are sound, and an answer lies in a block that dominates the one it was
asked for.** -/
theorem sound (hi : i ≤ script.length) : (stage i).Sound (script.plan stage) ∧
    ∀ name channel, Answers (script.take i) name channel →
      (script.plan stage).Dom ((script.plan stage).block (ν name)) (ν (script.place name)) := by
  induction i with
  | zero =>
    refine ⟨?_, fun name channel ⟨r, hr, _⟩ => ?_⟩
    · have hagrees := h.agrees (Nat.zero_le _)
      rw [h.first] at hagrees ⊢
      exact sound_first hagrees
    · obtain ⟨k, -, hk⟩ := exists_of_step? hr
      cases hk
  | succ i ih =>
    obtain ⟨hs, hp⟩ := ih (Nat.le_of_lt hi)
    have hr := getElem?_eq_getElem hi
    generalize script[i] = r at hr
    have hkeeps := h.orderly i r hr
    have hagrees := h.agrees hi
    have hs' : (stage (i + 1)).Sound (script.plan stage) := by
      refine (h.answers i r hr).2.sound _ fits (fun a ha => ?_) hs hagrees
      rw [uses_rename] at ha
      obtain ⟨name, hn, rfl⟩ := mem_map.1 ha
      rw [place_rename ν r (h.stage_current hi)]
      exact (hp name _ (hkeeps.uses name hn)).trans
        (h.draws.dominates h.orderly (hkeeps.dominated name hn) (h.isBlock_site hr))
    refine ⟨hs', fun name channel hanswers => ?_⟩
    rw [take_succ hr, answers_concat, List.length_take_of_le (Nat.le_of_lt hi)] at hanswers
    rcases hanswers with hanswers | ⟨rfl, hanswers⟩
    · exact hp name channel hanswers
    rcases cases_of_answers hanswers with ⟨kind, hkind⟩ | ⟨op, lhs, rhs, rfl, hop⟩ |
      ⟨slot, block, rfl⟩
    · obtain ⟨-, -, hb, -⟩ := h.made hr hkind
      exact hb ▸ .refl _ _
    · obtain ⟨-, -, hb, -⟩ := h.divided hr hop
      exact hb ▸ .refl _ _
    · obtain ⟨n, hreply, hn⟩ := h.reply i _ hr
      have hblock := (h.answers i _ hr).1.valid.blocks (ν block) (.head _)
      obtain ⟨m, rfl, hread⟩ := hreply.of_read
      rw [place_eq hr, hn m rfl]
      exact (rightRead_read (h.wf (Nat.le_of_lt hi)) hblock hread hs
        ((h.answers i _ hr).2.unwritten rfl ▸ hagrees)).2.dom

/-! ## Reads -/

theorem written (hi : i ≤ script.length) (x : String) (block : NodeId) :
    (stage i).written block (.var x) =
      lastWrite ((script.take i).map (Request.rename ν)) x block := by
  induction i with
  | zero =>
    rw [h.first]
    exact if_neg fun he => Slot.noConfusion he.2
  | succ i ih =>
    have hr := getElem?_eq_getElem hi
    rw [take_succ hr, map_append, map_singleton, lastWrite_concat,
      (h.answers i _ hr).2.written, ih (Nat.le_of_lt hi)]

theorem lastWrite_rename (hi : i ≤ script.length) (x : String) (hb : script.IsBlock block) :
    lastWrite ((script.take i).map (Request.rename ν)) x (ν block) =
      (lastWrite (script.take i) x block).map ν := by
  induction i with
  | zero => rfl
  | succ i ih =>
    have hr := getElem?_eq_getElem hi
    rw [take_succ hr, map_append, map_singleton, lastWrite_concat, lastWrite_concat,
      ih (Nat.le_of_lt hi), wrote_rename fun n hn he => h.draws.injective _ _
        ((h.orderly i _ hr).blocks n hn).of_take hb he]
    cases Request.wrote block x script[i] <;> rfl

/-- **What was written lies where it dominates.** -/
theorem dominates_of_lastWrite {requests : List Request} {value : NodeId}
    (hsub : ∀ r ∈ requests, ∃ r' ∈ script, r'.rename ν = r)
    (hw : lastWrite requests x block = some value) :
    value < (script.last stage).graph.size ∧
      Dominates (script.last stage).graph.preds ((script.last stage).graph.blockOf value) block := by
  obtain ⟨r, hmem, he⟩ := hsub _ (mem_of_lastWrite hw)
  obtain ⟨j, hr⟩ := mem_iff_getElem?.1 hmem
  cases r with
  | write slot name value' =>
    cases he
    have hk := h.orderly j _ hr
    have hj := (lt_length hr).le
    have hu := hk.uses value' (.head _)
    have hlt := (h.tracks j hj).answered value' _ hu
    refine ⟨hlt.trans_le (h.grows hj le_rfl).size_le, ?_⟩
    exact ((h.sound hj).2 value' _ hu).trans (h.draws.dominates h.orderly
      (hk.dominated value' (.head _)) (h.isBlock_site hr))
  | _ => cases he

/-- **What is read leads back to the write that reaches the read**, and to an undefined
value if there is none. -/
theorem read_origin {path : Path} (hr : script[i]? = some (.read (.var x) block))
    (hp : IsPath script.preds path) (hl : Path.last path = block) :
    ∃ origin, (script.last stage).graph.chase (path.rename ν)
        ((script.last stage).resolve (ν (i + 4))) = some origin ∧
      match reachingAt (lastWrite (script.take i) x) (lastWrite script x) path with
      | some (value, path') => (script.last stage).graph.chase (path'.rename ν)
          ((script.last stage).resolve (ν value)) = some origin
      | none => origin.2 = 0 ∧ origin.1 < (script.last stage).graph.size ∧
          (script.last stage).graph.kind origin.1 = .undefined ∧
          (script.last stage).graph.blockOf origin.1 = Graph.startBlock := by
  have hi := lt_length hr
  have hwf := h.wf (Nat.le_refl script.length)
  have ha := h.agrees hi
  obtain ⟨n, hreply, hn⟩ := h.reply i _ hr
  obtain ⟨m, rfl, hread⟩ := hreply.of_read
  have hb := (h.answers i _ hr).1.valid.blocks (ν block) (.head _)
  have hs : (script.take i).map (Request.rename ν) ++ (script.drop i).map (Request.rename ν) =
      script.map (Request.rename ν) := by
    rw [← map_append, take_append_drop]
  have hsub : ∀ {requests : List Request}, requests ⊆ script →
      ∀ r ∈ requests.map (Request.rename ν), ∃ r' ∈ script, r'.rename ν = r :=
    fun hsub r hm =>
      let ⟨r', hm, he⟩ := mem_map.1 hm
      ⟨r', hsub hm, he⟩
  have haround : Builder.Construction.Around ((script.take i).map (Request.rename ν))
      ((script.drop i).map (Request.rename ν)) x (ν block) (ν (i + 4)) (stage i).toBuilder
      (stage (i + 1)).toBuilder (script.last stage).toBuilder (stage i) (script.last stage) :=
    { first := rfl
      last := rfl
      sofar := h.written hi.le x
      all := fun block' => by
        rw [hs, h.written le_rfl, take_length]
      wf := hwf
      agrees := h.agrees le_rfl
      sound := (h.sound le_rfl).1
      holds := hn m rfl ▸ (rightRead_read (h.wf hi.le) hb hread
        (h.sound hi.le).1 ((h.answers i _ hr).2.unwritten rfl ▸ ha)).2
      isBlock := (h.draws.isBlock _).2 ⟨block,
        ((h.orderly i _ hr).blocks block (.head _)).of_take, rfl⟩
      answer_lt := h.answered ⟨_, (step?_add_four script i).trans hr, rfl⟩
      dominated := fun block' value hw => by
        rw [hs] at hw
        exact hw.elim (h.dominates_of_lastWrite (hsub (take_subset i script)))
          (h.dominates_of_lastWrite (hsub (List.Subset.refl script))) }
  -- The blocks on the path are sealed in the end.
  have hsealed : ∀ name, Path.Visits path name → script.IsSealed name := fun name =>
    h.orderly.isSealed_of_visits hp
      (hl ▸ (h.orderly i _ hr).isSealed block (mem_singleton_self _))
  obtain ⟨origin, hc, hreach⟩ := haround.exists_origin (h.draws.isPath h.orderly hp)
    (by rw [Path.last_rename h.draws.start, hl]) fun block' hv => by
      obtain ⟨name, hn, rfl⟩ := (Path.visits_rename h.draws.start).1 hv
      exact h.isSealed (hsealed name hn)
  refine ⟨origin, hc, ?_⟩
  have hall : ∀ name, Path.Visits path name →
      lastWrite (script.map (Request.rename ν)) x (ν name) = (lastWrite script x name).map ν := by
    intro name hv
    have hrename := h.lastWrite_rename le_rfl x
      (h.orderly.isBlock_of_visits hp hv)
    rwa [take_length] at hrename
  rw [hs, reachingAt_rename h.draws.start
    (h.lastWrite_rename hi.le x (h.orderly.isBlock_last hp)) hall] at hreach
  cases hf : reachingAt (lastWrite (script.take i) x) (lastWrite script x) path with
  | none | some found =>
    rw [hf] at hreach
    exact hreach

/-! ## Places -/

/-- What stands for an answer lies in a block that dominates the one it was asked
for. -/
theorem dominates_place (ha : script.Answers name channel) :
    Dominates (script.last stage).graph.preds
      ((script.last stage).graph.blockOf ((script.last stage).resolve (ν name)))
      (ν (script.place name)) := by
  obtain ⟨hs, hp⟩ := h.sound (Nat.le_refl script.length)
  rw [take_length] at hp
  exact (hs.same_resolve (h.wf le_rfl) (ν name)).dom.trans
    (hp name channel ha)

end Course

end SsaCompiler.Script
