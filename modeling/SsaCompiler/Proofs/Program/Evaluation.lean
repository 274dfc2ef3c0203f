import SsaCompiler.Proofs.Graph.Choice
import SsaCompiler.Proofs.Program.Semantics
import SsaCompiler.Proofs.Program.Strict

/-!
# Expressions have their words along every path

A stage of a walk is looked at from the last stage, along a path of the finished
graph to the current block. It **sees** some words of the variables if what every
variable holds there has its word (`Stage.Sees`). Then the node that the walk
answers for an expression has the word of the expression. If the expression traps,
one of the divisions that the walk has made for it does (`Expr.Builds.yields`).
-/

namespace SsaCompiler

open List Graph Builder Kind

variable {word : Option Word} {c : Builder} {Γ : String → Ty} {env : Env}

namespace Stage

variable {last s t u : Stage} {path : Path} {n a b : NodeId} {ty : Ty} {w x y : Word} {kind : Kind}
  {block : NodeId} {operands : List NodeId} {origin : Origin}

/-! ## The finished construction -/

/-- **A finished construction.** All blocks are sealed but the end block, which
nothing leaves. -/
structure Finished (last : Stage) : Prop where
  wired : last.Wired
  right : last.Right last.plan
  isSealed : ∀ block, (last.graph.kind block).isBlock = true → block ≠ Graph.endBlock →
    last.isSealed block = true
  final : ∀ n, (last.graph.kind n).isTerminator = true → last.graph.blockOf n ≠ Graph.endBlock

/-- **A path to a block that goes on.** -/
structure Route (last : Stage) (path : Path) : Prop where
  isPath : IsPath last.graph.preds path
  isBlock : (last.graph.kind (Path.last path)).isBlock = true
  notFinal : Path.last path ≠ Graph.endBlock

/-- A path to a block goes through such blocks only. -/
theorem Route.tail {edge : NodeId × Nat} (hpath : last.Route (edge :: path)) (h : last.Finished) :
    last.Route path := by
  obtain ⟨hpath, hb, -⟩ := hpath
  cases hpath with
  | @cons _ next index hpath he =>
    obtain ⟨jump, hj, hlast⟩ := mem_map.1 (mem_of_getElem? he)
    have hterm := h.wired.wf.jumps next hb jump hj
    refine ⟨hpath, ?_, ?_⟩ <;> rw [← hlast]
    · exact h.wired.wf.home jump (lt_of_isTerminator hterm)
    · exact h.final jump hterm

theorem Route.isSealed (hpath : last.Route path) (h : last.Finished) (hv : Path.Visits path block) :
    last.isSealed block := by
  induction path with
  | nil => exact hv.symm ▸ h.isSealed _ hpath.isBlock hpath.notFinal
  | cons edge path ih =>
    rcases hv with rfl | hv
    · exact h.isSealed _ hpath.isBlock hpath.notFinal
    · exact ih (hpath.tail h) hv

/-! ## Words of origins -/

/-- **What comes from an origin has a word** of a type. -/
structure Has (last : Stage) (path : Path) (origin : Origin) (ty : Ty) (w : Word) : Prop where
  gives : last.graph.Gives last.graph.Sensible (path.upTo origin.2) origin.1 w
  isOf : w.IsOf ty
  noTruth : ty = .int → last.graph.NoTruth origin.1

theorem Has.cons (h : last.Has path origin ty w) (hle : origin.2 ≤ path.length)
    (edge : NodeId × Nat) : last.Has (edge :: path) origin ty w :=
  ⟨(Path.upTo_cons hle).symm ▸ h.gives, h.isOf, h.noTruth⟩

/-- **A node has a word** of a type. -/
abbrev HasWord (last : Stage) (path : Path) (n : NodeId) (ty : Ty) (w : Word) : Prop :=
  last.Has path (last.plan.origin path n) ty w

section

variable (h : last.Finished) (hpath : last.Route path) (hlt : b < last.graph.size)
  (hstands : last.Stands b) (hsame : last.plan.Same a b)
  (hdom : last.plan.Dom (last.plan.block a) (Path.last path))

include h hpath hlt hstands hsame hdom

theorem Finished.chase_of_same : last.graph.chase path b = some (last.plan.origin path a) := by
  rw [hsame.origin path hpath.isPath hdom]
  exact h.right.sound.chase_eq h.wired.wf h.wired.agrees_plan hpath.isPath
    (fun _ => hpath.isSealed h) hlt hstands (hsame.dom.trans hdom)

theorem Finished.gives_of_same (hw : last.HasWord path a ty w) :
    last.graph.Gives last.graph.Sensible path b w ∧ (ty = .int → last.graph.NoTruth b) := by
  have hc := h.chase_of_same hpath hlt hstands hsame hdom
  refine ⟨gives_of_chase hc hw.gives, fun hint => ?_⟩
  by_cases hp : (last.graph.kind b).isPhi = true
  · refine .other (fun v hv => ?_) fun hv => ?_ <;> rw [hv] at hp <;> cases hp
  · rw [← fst_of_chase hc (Bool.eq_false_iff.2 hp)]
    exact hw.noTruth hint

end

/-- A node in the last block of a path has the word that it is computed to. -/
theorem hasWord_of_gives (hlast : last.Wired) (hlt : n < last.graph.size)
    (hb : last.graph.blockOf n = Path.last path) (hphi : (last.graph.kind n).isPhi = false)
    (hw : last.graph.Gives last.graph.Sensible path n w) (hof : w.IsOf ty)
    (hint : ty = .int → last.graph.NoTruth n) : last.HasWord path n ty w := by
  have ho : last.plan.origin path n = (n, path.length) :=
    Blueprint.origin_self hb (hlast.agrees_plan.plain n hlt hphi)
  rw [HasWord, ho]
  exact ⟨(Path.upTo_length path).symm ▸ hw, hof, hint⟩

/-! ## Stages on the way -/

/-- **A stage of the walk**, on the way to the last one. Nothing was written in blocks
that are not there yet. -/
structure Before (last s : Stage) : Prop where
  site : s.Site
  right : s.Right last.plan
  toward : Toward last last.plan s
  unwritten : ∀ n, s.graph.size ≤ n → s.written n = fun _ => none

/-- The caller writes only in blocks. -/
theorem Steps.unwritten (h : Steps s t) (hwf : s.WellFormed)
    (hs : ∀ n, s.graph.size ≤ n → s.written n = fun _ => none) :
    ∀ n, t.graph.size ≤ n → t.written n = fun _ => none := by
  induction h with
  | refl => exact hs
  | @tail t u hst hstep ih =>
    intro n hn
    have hg := hstep.grows (Steps.wf hst hwf)
    have ho := ih n (hg.size_le.trans hn)
    cases hstep with
    | @write slot block value hb =>
      have hne : n ≠ block := (Nat.ne_of_lt (Nat.lt_of_lt_of_le (lt_of_isBlock hb)
        (hg.size_le.trans hn))).symm
      funext slot'
      rw [← congrFun ho slot']
      exact if_neg fun he => hne he.1
    | _ => exact ho

variable {P : Prop}

theorem Before.keeps (h : last.Before s) (hk : Keeps last last.plan s P t) (ht : t.Site)
    (htoward : Toward last last.plan t) : last.Before t ∧ P := by
  obtain ⟨hr, hP⟩ := hk.right h.site.wf htoward h.right
  exact ⟨⟨ht, hr, htoward, hk.steps.unwritten h.site.wf h.unwritten⟩, hP⟩

/-- **What the walk may use**: a node that is there on every path, and is a value. -/
structure Good (last s : Stage) (n : NodeId) : Prop extends s.Usable n where
  fits : Fits last.plan s n

theorem Good.stays (h : last.Good s n) (hstays : Stays s t) : last.Good t n :=
  ⟨hstays.usable n h.toUsable, h.fits.of_current hstays.current⟩

/-- **How operands change till the end**: each is replaced by what stands for it. -/
theorem Toward.exists_operands (h : Toward last last.plan t) (hl : last.Finished)
    (hn : n < t.graph.size) (hphi : (t.graph.kind n).isPhi = false)
    (hb : (t.graph.kind n).isBlock = false) :
    List.Forall₂ (fun a b => last.plan.Same a b ∧ last.Stands b ∧ b < last.graph.size)
      (t.graph.operands n) (last.graph.operands n) := by
  obtain ⟨new, hf, hops⟩ := h.grows.resolved
  have hm := hops n hn hphi hb
  rw [hm, List.forall₂_map_right_iff, List.forall₂_same]
  refine fun a ha => ⟨Builder.Sound.same_root (fun e he => ?_) a, ?_, ?_⟩
  · exact hl.right.sound.same e (hf ▸ mem_append_left _ he)
  · exact hl.wired.standing n _ (hm ▸ mem_map_of_mem ha)
  · exact hl.wired.wf.coherent.closed n _ (hm ▸ mem_map_of_mem ha)

theorem Toward.operands_output {channel : Channel} (h : Toward last last.plan t)
    (hl : last.Finished) (hn : n < t.graph.size) (hk : t.graph.kind n = .proj channel)
    (hops : t.graph.operands n = [a]) (ha : (last.graph.kind a).isPhi = false) :
    last.graph.operands n = [a] := by
  obtain ⟨new, hf, hr⟩ := h.grows.resolved
  rw [hr n hn (by rw [hk]; rfl) (by rw [hk]; rfl), hops]
  have hstands : last.Stands a := hl.wired.wf.stands_of_isPhi_eq_false ha
  unfold Builder.Stands at hstands
  rw [hf, lookup_append, Option.or_eq_none_iff] at hstands
  rw [map_singleton, (root_of_lookup hstands.1).1]

/-! ## What the walk answers -/

/-- **The divisions made between two stages have words.** -/
def Calm (last : Stage) (path : Path) (s t : Stage) : Prop :=
  ∀ d, s.graph.size ≤ d → d < t.graph.size → (last.graph.kind d).mayTrap = true →
    ∃ w, last.graph.Gives last.graph.Sensible path d w

/-- **A division made between two stages traps.** -/
def Trapping (last : Stage) (path : Path) (s t : Stage) : Prop :=
  ∃ d, s.graph.size ≤ d ∧ d < t.graph.size ∧ last.graph.TrapsAt last.graph.Sensible path d

/-- **What a part of the walk comes to** that answers a node for something that has a
word or traps. -/
def Yields (last : Stage) (path : Path) (s t : Stage) (n : NodeId) (ty : Ty) : Option Word → Prop
  | some w => last.HasWord path n ty w ∧ last.Calm path s t
  | none => last.Trapping path s t

theorem calm_of_kind (h : Toward last last.plan t)
    (hk : ∀ d, s.graph.size ≤ d → d < t.graph.size → (t.graph.kind d).mayTrap = false) :
    last.Calm path s t := fun d hle hlt htrap => by
  rw [h.grows.kind d hlt, hk d hle hlt] at htrap
  cases htrap

theorem Calm.trans (h : last.Calm path s t) (h' : last.Calm path t u) : last.Calm path s u :=
  fun d hle hlt htrap => by
    rcases Nat.lt_or_ge d t.graph.size with hd | hd
    · exact h d hle hd htrap
    · exact h' d hd hlt htrap

theorem Trapping.mono {s' t' : Stage} (h : last.Trapping path s t)
    (hs : s'.graph.size ≤ s.graph.size) (ht : t.graph.size ≤ t'.graph.size) :
    last.Trapping path s' t' := by
  obtain ⟨d, hle, hlt, htraps⟩ := h
  exact ⟨d, hs.trans hle, hlt.trans_le ht, htraps⟩

theorem Yields.after (h : last.Yields path t u n ty word) (hc : last.Calm path s t)
    (hst : s.graph.size ≤ t.graph.size) :
    last.Yields path s u n ty word := by
  cases word with
  | none => exact Trapping.mono h hst le_rfl
  | some w => exact ⟨h.1, hc.trans h.2⟩

/-- **One part after another**: if the first one traps, so do both. -/
theorem Yields.bind {m : NodeId} {ty' : Ty} {next : Word → Option Word}
    (h : last.Yields path s t n ty word) (hsize : t.graph.size ≤ u.graph.size)
    (hst : s.graph.size ≤ t.graph.size)
    (hn : ∀ w, last.HasWord path n ty w → last.Yields path t u m ty' (next w)) :
    last.Yields path s u m ty' (word.bind next) := by
  cases word with
  | none => exact Trapping.mono h le_rfl hsize
  | some w =>
    obtain ⟨hw, hc⟩ := h
    exact (hn w hw).after hc hst

/-! ## Nodes without effects -/

section Make

variable (hl : last.Finished) (hpath : last.Route path)
  (ht : Toward last last.plan (s.make kind block operands).2)

include ht

theorem calm_make (hk : kind.isShareable) : last.Calm path s (s.make kind block operands).2 := by
  obtain ⟨ha, -⟩ := s.add_spec kind block operands
  refine calm_of_kind ht fun d hle hlt => ?_
  have hlt : d < s.graph.size + 1 := hlt.trans_eq ha.size
  have hd : d = s.graph.size := (Nat.le_of_lt_succ hlt).antisymm hle
  rw [show (s.make kind block operands).2.graph.kind d = kind from (ha.kind d).trans (if_pos hd)]
  exact Bool.eq_false_iff.2 fun htrap =>
    absurd (hk.symm.trans (isShareable_eq_false_of_mayTrap htrap)) nofun

theorem answer_make (hwf : s.WellFormed) : (s.make kind block operands).1 < last.graph.size ∧
      last.graph.kind (s.make kind block operands).1 = kind ∧
      last.graph.blockOf (s.make kind block operands).1 = block := by
  obtain ⟨hlt, hk, hb⟩ := hwf.answer kind block operands
  exact ⟨hlt.trans_le ht.grows.size_le, (ht.grows.kind _ hlt).trans hk,
    (ht.grows.blockOf _ hlt).trans hb⟩

include hl

/-- **In the end the answer has what stands for its operands**, perhaps in another
order where that does not matter. -/
theorem exists_operands_make (hwf : s.WellFormed) (hkind : kind.isShareable)
    (hops : ∀ a ∈ operands, s.Stands a) :
    ∃ ops, ops.Perm operands ∧ (kind.isCommutative = false → ops = operands) ∧
      List.Forall₂ (fun a b => last.plan.Same a b ∧ last.Stands b ∧ b < last.graph.size) ops
        (last.graph.operands (s.make kind block operands).1) := by
  obtain ⟨hlt, hk, -⟩ := hwf.answer kind block operands
  have hkey := hwf.operands_answer kind block hops
  refine ⟨_, ValueKey.perm_of_of_eq hkey, fun hc => ?_, ht.exists_operands hl hlt ?_ ?_⟩
  · have ho := congrArg ValueKey.operands hkey
    simpa [ValueKey.of, hc] using ho
  · exact (congrArg Kind.isPhi hk).trans (isPhi_eq_false_of_isShareable hkind)
  · exact (congrArg Kind.isBlock hk).trans (isBlock_eq_false_of_isShareable hkind)

end Make

section Answers

variable (hl : last.Finished) (hpath : last.Route path) (hs : last.Before s)

include hl hpath

theorem Finished.forall₂_gives {ops ops' : List NodeId} {words : List Word}
    (hlast : Path.last path = s.current)
    (hsame : List.Forall₂ (fun a b => last.plan.Same a b ∧ last.Stands b ∧ b < last.graph.size)
      ops ops')
    (hwords : List.Forall₂ (fun a w => last.Good s a ∧ ∃ ty, last.HasWord path a ty w) ops words) :
    List.Forall₂ (last.graph.Gives last.graph.Sensible path) ops' words := by
  induction hsame generalizing words with
  | nil =>
    cases hwords
    exact .nil
  | cons hab _ ih =>
    cases hwords with
    | cons hw hr =>
      obtain ⟨hg, ty, hw⟩ := hw
      exact .cons (hl.gives_of_same hpath hab.2.2 hab.2.1 hab.1 (hlast ▸ hg.fits.dom) hw).1
        (ih hr)

include hs

/-- **A constant has its word.** -/
theorem yields_constant (h : s.constant kind = (n, t)) (ht : Toward last last.plan t)
    (hkind : kind.isShareable) (hc : kind.constant? = some w) (hof : w.IsOf ty)
    (hint : ty = .int → ∀ b, kind ≠ .constBool b) : last.Yields path s t n ty (some w) := by
  obtain rfl : (s.constant kind).1 = n := congrArg Prod.fst h
  obtain rfl : (s.constant kind).2 = t := congrArg Prod.snd h
  obtain ⟨hlt, hk, hblock⟩ := answer_make ht hs.site.wf
  have hcond : last.graph.kind (s.constant kind).1 ≠ .condValue := fun he => by
    rw [← hk, he] at hc
    cases hc
  have ho : last.plan.origin path (s.constant kind).1 = ((s.constant kind).1, 0) :=
    Blueprint.origin_of_startBlock hpath.isPath hl.wired.agrees_plan.entry hblock
      (hl.wired.agrees_plan.plain _ hlt (by
        rw [hk]
        exact isPhi_eq_false_of_isShareable hkind))
  refine ⟨?_, calm_make ht hkind⟩
  rw [HasWord, ho]
  refine ⟨gives_of_constant? (hpath.isPath.of_suffix (Path.upTo_suffix _ _))
    hl.wired.agrees_plan.entry hblock (hk.symm ▸ hc) (sensible_of_ne hcond), hof, fun hi => ?_⟩
  exact .other (fun b hb => hint hi b (hk.symm.trans hb)) hcond

/-- **A node that is computed from two others has its word.** -/
theorem yields_pair (ht : Toward last last.plan (s.compute kind [a, b]).2)
    (hlast : Path.last path = s.current) (hkind : kind.isShareable)
    (hcount : kind.argumentCount = 2) {tya tyb : Ty} (ha : last.Good s a) (hb : last.Good s b)
    (hx : last.HasWord path a tya x) (hy : last.HasWord path b tyb y)
    (hw : kind.result? [x, y] = some w) (hof : w.IsOf ty) :
    last.Yields path s (s.compute kind [a, b]).2 (s.compute kind [a, b]).1 ty (some w) := by
  obtain ⟨hlt, hk, hblock⟩ := answer_make ht hs.site.wf
  have hne : ∀ k : Kind, k.argumentCount ≠ 2 → last.graph.kind (s.compute kind [a, b]).1 ≠ k :=
    fun k hne he => hne (by rw [← he, hk, hcount])
  obtain ⟨ops, hp, hcomm, hsame⟩ := exists_operands_make hl ht hs.site.wf hkind
    (forall_mem_pair ha.stands hb.stands)
  have hg : ∃ words, List.Forall₂ (last.graph.Gives last.graph.Sensible path)
      (last.graph.operands (s.compute kind [a, b]).1) words ∧ kind.result? words = some w ∧
      words.length = 2 := by
    have hwa : last.Good s a ∧ ∃ ty, last.HasWord path a ty x := ⟨ha, _, hx⟩
    have hwb : last.Good s b ∧ ∃ ty, last.HasWord path b ty y := ⟨hb, _, hy⟩
    by_cases hc : kind.isCommutative = true
    · rcases perm_pair.1 hp with rfl | rfl
      · exact ⟨_, hl.forall₂_gives hpath hlast hsame (.cons hwa (.cons hwb .nil)), hw, rfl⟩
      · exact ⟨[y, x], hl.forall₂_gives hpath hlast hsame (.cons hwb (.cons hwa .nil)),
          (result?_swap hc y x).trans hw, rfl⟩
    · rw [hcomm (Bool.eq_false_iff.2 hc)] at hsame
      exact ⟨_, hl.forall₂_gives hpath hlast hsame (.cons hwa (.cons hwb .nil)), hw, rfl⟩
  obtain ⟨words, hg, hr, hlength⟩ := hg
  refine ⟨hasWord_of_gives hl.wired hlt (hblock.trans hlast.symm) ?_ (gives_of_forall₂
    words (hblock.trans hlast.symm) ?_ (sensible_of_ne (hne _ (by decide))) ?_) hof
    fun _ => .other (fun v => hne _ nofun) (hne _ (by decide)), calm_make ht hkind⟩
  · rw [hk]
    exact isPhi_eq_false_of_isShareable hkind
  · have hargs : last.graph.arguments (s.compute kind [a, b]).1 =
        last.graph.operands (s.compute kind [a, b]).1 := by
      rw [Graph.arguments, hk, hcount, ← hlength, ← hg.length_eq, take_length]
    rw [hargs]
    exact hg
  · rw [hk]
    exact hr

/-- **A choice has the word of the arm that is chosen.** -/
theorem yields_choice {cond : NodeId} {z : Word}
    (ht : Toward last last.plan (s.compute .condValue [cond, a, b]).2)
    (hlast : Path.last path = s.current) (hcond : last.Good s cond) (ha : last.Good s a)
    (hb : last.Good s b) (hx : last.HasWord path cond .bool x) (hy : last.HasWord path a ty y)
    (hz : last.HasWord path b ty z) :
    last.Yields path s (s.compute .condValue [cond, a, b]).2
      (s.compute .condValue [cond, a, b]).1 ty (some (if x ≠ 0 then y else z)) := by
  obtain ⟨hlt, hk, hblock⟩ := answer_make ht hs.site.wf
  obtain ⟨ops, -, hcomm, hsame⟩ := exists_operands_make hl ht hs.site.wf rfl
    (forall_mem_triple hcond.stands ha.stands hb.stands)
  obtain rfl := hcomm rfl
  -- The parts of the choice, in the end.
  obtain ⟨cond', a', b', ho, hc', ha', hb'⟩ : ∃ cond' a' b',
      last.graph.operands (s.compute .condValue [cond, a, b]).1 = [cond', a', b'] ∧
      (last.plan.Same cond cond' ∧ last.Stands cond' ∧ cond' < last.graph.size) ∧
      (last.plan.Same a a' ∧ last.Stands a' ∧ a' < last.graph.size) ∧
      (last.plan.Same b b' ∧ last.Stands b' ∧ b' < last.graph.size) := by
    generalize last.graph.operands (s.compute .condValue [cond, a, b]).1 = ops' at hsame
    cases hsame with
    | cons hc hsame =>
      cases hsame with
      | cons ha hsame =>
        cases hsame with
        | cons hb hsame =>
          cases hsame
          exact ⟨_, _, _, rfl, hc, ha, hb⟩
  have hp : ∀ {m m' ty w}, last.Good s m → last.HasWord path m ty w →
      (last.plan.Same m m' ∧ last.Stands m' ∧ m' < last.graph.size) →
      last.graph.Gives last.graph.Sensible path m' w ∧ (ty = .int → last.graph.NoTruth m') :=
    fun hm hw hm' => hl.gives_of_same hpath hm'.2.2 hm'.2.1 hm'.1 (hlast ▸ hm.fits.dom) hw
  obtain ⟨hgc, -⟩ := hp hcond hx hc'
  obtain ⟨hga, hna⟩ := hp ha hy ha'
  obtain ⟨hgb, hnb⟩ := hp hb hz hb'
  have hof : (if x ≠ 0 then y else z).IsOf ty := by
    split
    · exact hy.isOf
    · exact hz.isOf
  have hsensible : last.graph.Sensible (s.compute .condValue [cond, a, b]).1 [x, y, z] := by
    intro _ c t f x' y' z' hops' hwords
    obtain ⟨rfl, rfl, rfl⟩ := by simpa using ho.symm.trans hops'
    obtain ⟨rfl, rfl, rfl⟩ := by simpa using hwords
    refine ⟨hx.isOf, ?_⟩
    cases ty with
    | bool => exact .inl ⟨hy.isOf, hz.isOf⟩
    | int => exact .inr ⟨hna rfl, hnb rfl⟩
  have hargs : last.graph.arguments (s.compute .condValue [cond, a, b]).1 = [cond', a', b'] := by
    rw [Graph.arguments, hk, ho]
    rfl
  refine ⟨hasWord_of_gives hl.wired hlt (hblock.trans hlast.symm) (by rw [hk]; rfl)
    (gives_of_forall₂ [x, y, z] (hblock.trans hlast.symm) ?_ hsensible
      (by rw [hk]; rfl)) hof fun hi => .choice hk ho (hna hi) (hnb hi), calm_make ht rfl⟩
  rw [hargs]
  exact .cons hgc (.cons hga (.cons hgb .nil))

/-! ## Variables and divisions -/

/-- **A stage sees words of the variables** along a path to the current block. -/
def Sees (last s : Stage) (Γ : String → Ty) (path : Path) (env : Env) : Prop :=
  ∀ name, last.Has path (last.plan.current s.written path (.var name)) (Γ name) (env name)

omit hl hpath hs in
/-- Reading makes merges and undefined values only. -/
theorem calm_read {slot : Slot} (hs : last.Before s)
    (hr : s.read slot s.current = .ok (n, c)) (ht : Toward last last.plan (s.on c)) :
    last.Calm path s (s.on c) := by
  have hev := (tidy_read hs.site.wf hs.site.current hr).evolves
  refine calm_of_kind ht fun d hle _ => ?_
  rcases hev.fresh d hle with hphi | hu
  · exact mayTrap_eq_false_of_isPhi hphi
  · rw [show (s.on c).graph.kind d = _ from hu]
    rfl

omit hl hpath hs in
/-- **A variable that is read has its word.** -/
theorem yields_read {name : String} (hpath : last.Route path) (hs : last.Before s)
    (hlast : Path.last path = s.current) (hsees : last.Sees s Γ path env)
    (hr : s.read (.var name) s.current = .ok (n, c))
    (ht : Toward last last.plan (s.on c)) :
    last.Yields path s (s.on c) n (Γ name) (some (env name)) := by
  have hwf := hs.site.wf
  have hc := hs.site.current
  obtain ⟨-, hh⟩ := rightRead_read hwf hc hr hs.right.sound
    (ht.agrees ((Step.read hc hr).wf hwf))
  refine ⟨?_, calm_read hs hr ht⟩
  rw [HasWord, hh.origin path hpath.isPath hlast]
  exact hsees name

omit hs in
/-- **A division has its word, or it traps.** -/
theorem yields_trapping {op : ArithOp} {effect : NodeId}
    (ht : Toward last last.plan (s.trapping (.arith op) a b effect))
    (hlast : Path.last path = s.current) (ha : last.Good s a)
    (hb : last.Good s b) (hx : last.HasWord path a .int x) (hy : last.HasWord path b .int y) :
    last.Yields path s (s.trapping (.arith op) a b effect) (s.graph.size + 2) .int (op.eval x y) := by
  have htrapped := trapped_trapping (.arith op) a b effect s
  obtain ⟨hthree, hkind, -, hkindValue⟩ := htrapped.grown ht.grows.kind ht.grows.blockOf
  have hlt := fun k hk => (hthree k hk).1
  have hblock := fun k hk => (hthree k hk).2.trans hlast.symm
  -- The operands of the division.
  have hsame := ht.exists_operands hl (n := s.graph.size) (hlt 0 (by decide))
    (by rw [htrapped.kind]; rfl) (by rw [htrapped.kind]; rfl)
  simp only [htrapped.operands, forall₂_cons_left_iff] at hsame
  obtain ⟨a', _, ha', ⟨b', _, hb', -, rfl⟩, hops⟩ := hsame
  have hargs : last.graph.arguments s.graph.size = [a', b'] := by
    rw [Graph.arguments, hkind, hops]
    rfl
  have hga := (hl.gives_of_same hpath ha'.2.2 ha'.2.1 ha'.1 (hlast ▸ ha.fits.dom) hx).1
  have hgb := (hl.gives_of_same hpath hb'.2.2 hb'.2.1 hb'.1 (hlast ▸ hb.fits.dom) hy).1
  cases hw : op.eval x y with
  | none =>
    exact ⟨s.graph.size, le_rfl, hlt 0 (by decide), .arith op, a', b', x, y, hkind,
      hblock 0 (by decide), hargs, hga, hgb, hw⟩
  | some w =>
    have hg : last.graph.Gives last.graph.Sensible path s.graph.size w := by
      refine gives_of_forall₂ [x, y] (hblock 0 (by decide)) ?_
        (sensible_of_ne (by rw [hkind]; rintro ⟨⟩)) (by rw [hkind]; exact hw)
      rw [hargs]
      exact .cons hga (.cons hgb .nil)
    -- The result is an output of the division, which nothing has replaced.
    have ho := ht.operands_output hl (hlt 2 (by decide)) htrapped.kindValue
      htrapped.operandsValue (by rw [hkind]; rfl)
    have hr : last.graph.Gives last.graph.Sensible path (s.graph.size + 2) w := by
      refine gives_of_forall₂ [w] (hblock 2 (by decide)) ?_
        (sensible_of_ne (by rw [hkindValue]; rintro ⟨⟩)) (by rw [hkindValue]; rfl)
      rw [Graph.arguments, hkindValue, ho]
      exact .cons hg .nil
    refine ⟨hasWord_of_gives hl.wired ((hlt 2 (by decide)).trans_le ht.grows.size_le)
      (hblock 2 (by decide)) (by rw [hkindValue]; rfl) hr trivial fun _ => .other ?_ ?_,
      fun d hle hd htrap => ?_⟩
    · rw [hkindValue]
      rintro b ⟨⟩
    · rw [hkindValue]
      rintro ⟨⟩
    · rw [htrapped.size] at hd
      rw [ht.grows.kind d (htrapped.size ▸ hd)] at htrap
      obtain rfl | rfl | rfl : d = s.graph.size ∨ d = s.graph.size + 1 ∨ d = s.graph.size + 2 := by
        omega
      · exact ⟨w, hg⟩
      · rw [htrapped.kindEffect] at htrap
        cases htrap
      · rw [htrapped.kindValue] at htrap
        cases htrap

end Answers

/-! ## Expressions -/

theorem Answered.toward (h : Answered s n t) (hs : s.Wired) (ht : Toward last last.plan t) :
    Toward last last.plan s :=
  ht.back (h.steps.grows hs.wf) hs.wf

theorem Answered.size_le (h : Answered s n t) (hs : s.Wired) : s.graph.size ≤ t.graph.size :=
  (h.steps.grows hs.wf).size_le

/-- A part of the walk answers what may be used, at a stage on the way. -/
theorem Before.answered (hs : last.Before s) (h : Answered s n t)
    (hk : Keeps last last.plan s (Fits last.plan t n) t) (ht : Toward last last.plan t) :
    last.Before t ∧ last.Good t n := by
  obtain ⟨hb, hf⟩ := hs.keeps hk (h.site hs.site) ht
  exact ⟨hb, h.answer, hf⟩

theorem Sees.stays (h : last.Sees s Γ path env) (hst : Stays s t) :
    last.Sees t Γ path env := fun name => by
  rw [Blueprint.current, hst.written]
  exact h name

theorem constant_answered (hs : s.Wired) (hk : kind.isShareable) (h : s.constant kind = (n, t)) :
    Answered s n t := by
  have ha := answered_constant kind hs (isPlain_of_isShareable hk)
  rwa [h] at ha

theorem Before.constant (hs : last.Before s) (hkind : kind.isShareable)
    (ha : kind.arity? = some 0) (hc : kind.isComputation = false)
    (h : s.constant kind = (n, t)) (ht : Toward last last.plan t) :
    last.Before t ∧ last.Good t n := by
  have hk : Keeps last last.plan s _ _ := keeps_constant kind hs.site.toWired hkind ha hc
  rw [h] at hk
  exact hs.answered (constant_answered hs.site.toWired hkind h) hk ht

end Stage

open Stage

theorem Word.isOf_ofBool (b : Bool) : (Word.ofBool b).IsOf .bool := by
  cases b
  · exact .inl rfl
  · exact .inr rfl

section

variable {last s t u : Stage} {path : Path} {n a b : NodeId} {ty ty' ty'' : Ty} {x y : Word}

theorem yields_int (hl : last.Finished) (hpath : last.Route path) (hs : last.Before s)
    (h : s.constant (.constInt x) = (n, t)) (ht : Toward last last.plan t) :
    last.Yields path s t n .int (some x) :=
  yields_constant hl hpath hs h ht rfl rfl trivial nofun

theorem yields_bool {b : Bool} (hl : last.Finished) (hpath : last.Route path) (hs : last.Before s)
    (h : s.constant (.constBool b) = (n, t)) (ht : Toward last last.plan t) :
    last.Yields path s t n .bool (some (.ofBool b)) :=
  yields_constant hl hpath hs h ht rfl rfl (Word.isOf_ofBool b) nofun

/-- **Joining two values by an operator** joins their words. -/
theorem Operates.yields {op : Operator} (h : Operates s a b op n t) (hl : last.Finished)
    (hpath : last.Route path) (hs : last.Before s) (ht : Toward last last.plan t)
    (hlast : Path.last path = s.current) (ha : last.Good s a) (hb : last.Good s b)
    (hop : op.HasType ty ty' ty'') (hx : last.HasWord path a ty x) (hy : last.HasWord path b ty' y) :
    last.Yields path s t n ty'' (op.eval x y) := by
  have hwired := hs.site.toWired
  cases h with
  | @computes op he =>
    cases hop
    have hw : ∃ w, op.eval x y = some w := by
      cases op with
      | div | mod => cases he
      | _ => exact ⟨_, rfl⟩
    obtain ⟨w, hw⟩ := hw
    rw [Operator.eval, hw]
    refine yields_pair hl hpath hs ht hlast ?_ rfl ha hb hx hy hw trivial
    show (!op.hasEffect) = true
    rw [he]
    rfl
  | @traps op effect c he hr =>
    cases hop
    have hanswered := answered_read hwired hr
    have hsite := hanswered.site hs.site
    have hf : Answered _ _ ((s.on c).trapping (.arith op) a b effect) :=
      answered_trapping hsite (hanswered.usable _ ha.toUsable)
      (hanswered.usable _ hb.toUsable) hanswered.answer
    have hr' : last.Calm path _ (s.on c) := calm_read hs hr (hf.toward hsite.toWired ht)
    have hyields := yields_trapping hl hpath ht (hlast.trans hanswered.current.symm)
      (ha.stays hanswered.toStays) (hb.stays hanswered.toStays) hx hy
    exact hyields.after hr' (hanswered.size_le hwired)
  | compares =>
    cases hop
    exact yields_pair hl hpath hs ht hlast rfl rfl ha hb hx hy rfl (Word.isOf_ofBool _)
  | @and no u hno =>
    cases hop
    have hanswered := constant_answered hwired rfl hno
    have hf := answered_compute (hanswered.wired hwired)
      (show Kind.isPlain .condValue = true from rfl) (usable_triple
      (hanswered.usable _ ha.toUsable) (hanswered.usable _ hb.toUsable) hanswered.answer)
    have hu := hf.toward (hanswered.wired hwired) ht
    obtain ⟨hbefore, hg⟩ := hs.constant rfl rfl rfl hno hu
    obtain ⟨hz, hc⟩ := yields_bool hl hpath hs hno hu
    have hyields := yields_choice hl hpath hbefore ht (hlast.trans hanswered.current.symm)
      (ha.stays hanswered.toStays) (hb.stays hanswered.toStays) hg hx hy hz
    have heval : Operator.eval (.logic .and) x y = some (if x ≠ 0 then y else Word.ofBool false) := by
      rcases hx.isOf with rfl | rfl <;> rcases hy.isOf with rfl | rfl <;> rfl
    rw [heval]
    exact hyields.after hc (hanswered.size_le hwired)
  | @or yes u hyes =>
    cases hop
    have hanswered := constant_answered hwired rfl hyes
    have hf := answered_compute (hanswered.wired hwired)
      (show Kind.isPlain .condValue = true from rfl) (usable_triple
      (hanswered.usable _ ha.toUsable) hanswered.answer (hanswered.usable _ hb.toUsable))
    have hu := hf.toward (hanswered.wired hwired) ht
    obtain ⟨hbefore, hg⟩ := hs.constant rfl rfl rfl hyes hu
    obtain ⟨hz, hc⟩ := yields_bool hl hpath hs hyes hu
    have hyields := yields_choice hl hpath hbefore ht (hlast.trans hanswered.current.symm)
      (ha.stays hanswered.toStays) hg (hb.stays hanswered.toStays) hx hz hy
    have heval : Operator.eval (.logic .or) x y = some (if x ≠ 0 then Word.ofBool true else y) := by
      rcases hx.isOf with rfl | rfl <;> rcases hy.isOf with rfl | rfl <;> rfl
    rw [heval]
    exact hyields.after hc (hanswered.size_le hwired)

/-- A part of the walk before the rest of it: what it answers may be used. -/
theorem Stage.Before.part {e : Expr} {v : Stage} (hs : last.Before s) (h : e.Builds s a t)
    (hr : Answered t n v) (ht : Toward last last.plan v) :
    Toward last last.plan t ∧ last.Before t ∧ last.Good t a := by
  have ha := h.answered hs.site
  have htt := hr.toward (ha.wired hs.site.toWired) ht
  exact ⟨htt, hs.answered ha (h.keeps hs.site) htt⟩

/-- **The word of a part is used by the rest of the walk.** -/
theorem Expr.Builds.yields_bind {e : Expr} {v : Stage} {word : Option Word}
    {next : Word → Option Word}
    (h : e.Builds s a t) (hr : Answered t n v) (hs : last.Before s)
    (ht : Toward last last.plan v) (hlast : Path.last path = s.current)
    (hsees : last.Sees s Γ path env)
    (hw : Toward last last.plan t → last.Yields path s t a ty word)
    (hn : ∀ x, last.HasWord path a ty x → last.Before t → last.Good t a →
      Path.last path = t.current → last.Sees t Γ path env → last.Yields path t v n ty' (next x)) :
    last.Yields path s v n ty' (word.bind next) := by
  have ha := h.answered hs.site
  obtain ⟨htt, hbt, hga⟩ := hs.part h hr ht
  exact (hw htt).bind (hr.size_le hbt.site.toWired) (ha.size_le hs.site.toWired)
    fun x hx => hn x hx hbt hga (hlast.trans ha.current.symm) (hsees.stays ha.toStays)

/-- **The walk over an expression answers a node that has its word.** If the
expression traps, a division made by the walk does. -/
theorem Expr.Builds.yields {e : Expr} (h : e.Builds s n t) (hl : last.Finished)
    (hpath : last.Route path) (hs : last.Before s) (ht : Toward last last.plan t)
    (hlast : Path.last path = s.current) (hsees : last.Sees s Γ path env) (hty : e.HasType Γ ty) :
    last.Yields path s t n ty (e.eval env) := by
  induction h generalizing ty with
  | int value =>
    cases hty
    exact yields_int hl hpath hs rfl ht
  | bool value =>
    cases hty
    exact yields_bool hl hpath hs rfl ht
  | var hread =>
    cases hty
    exact yields_read hpath hs hlast hsees hread ht
  | @binary op l r s t u v a b n hleft hr h ihl ihr =>
    cases hty with
    | binary hop htyl htyr =>
      have ha := hleft.answered hs.site
      have hb := hr.answered (ha.site hs.site)
      have hn := h.answered (hb.site (ha.site hs.site)) (hb.usable _ ha.answer) hb.answer
      refine hleft.yields_bind (hb.trans hn (ha.wired hs.site.toWired)) hs ht hlast hsees
        (ihl hs · hlast hsees htyl) fun x hx hbt hga hlast hsees => ?_
      refine hr.yields_bind hn hbt ht hlast hsees (ihr hbt · hlast hsees htyr)
        fun y hy hbu hgb hlast _ => ?_
      exact h.yields hl hpath hbu ht hlast (hga.stays hb.toStays) hgb hop hx hy
  | @neg e s t u v a nought n he hnought h ih =>
    cases hty with
    | neg htye =>
      have ha := he.answered hs.site
      have hb := (builds_int hnought).answered (ha.site hs.site)
      have hn := h.answered (hb.site (ha.site hs.site)) hb.answer (hb.usable _ ha.answer)
      refine he.yields_bind (hb.trans hn (ha.wired hs.site.toWired)) hs ht hlast hsees
        (ih hs · hlast hsees htye) fun x hx hbt hga hlast hsees => ?_
      exact (builds_int hnought).yields_bind hn hbt ht hlast hsees (yields_int hl hpath hbt hnought)
        fun y hy hbu hgb hlast _ =>
          h.yields hl hpath hbu ht hlast hgb (hga.stays hb.toStays) (.arith .sub) hy hx
  | @bitNot e s t u v a ones n he ho h ih =>
    cases hty with
    | bitNot htye =>
      have ha := he.answered hs.site
      have hb := (builds_int ho).answered (ha.site hs.site)
      have hn := h.answered (hb.site (ha.site hs.site)) (hb.usable _ ha.answer) hb.answer
      refine he.yields_bind (hb.trans hn (ha.wired hs.site.toWired)) hs ht hlast hsees
        (ih hs · hlast hsees htye) fun x hx hbt hga hlast hsees => ?_
      rw [show some (~~~x) = (some (-1)).bind ((Operator.arith .bitXor).eval x) from
        congrArg some BitVec.xor_allOnes.symm]
      exact (builds_int ho).yields_bind hn hbt ht hlast hsees (yields_int hl hpath hbt ho)
        fun y hy hbu hgb hlast _ =>
          h.yields hl hpath hbu ht hlast (hga.stays hb.toStays) hgb (.arith .bitXor) hx hy
  | @logicNot e s t u v a no yes he hno hyes ih =>
    cases hty with
    | logicNot htye =>
      have ha := he.answered hs.site
      have hb := (builds_bool hno).answered (ha.site hs.site)
      have hc := (builds_bool hyes).answered (hb.site (ha.site hs.site))
      have hwt := ha.wired hs.site.toWired
      have hn := answered_compute (hc.wired (hb.wired hwt))
        (show Kind.isPlain .condValue = true from rfl) (usable_triple
          (hc.usable _ (hb.usable _ ha.answer)) (hc.usable _ hb.answer) hc.answer)
      have hcn := hc.trans hn (hb.wired hwt)
      refine he.yields_bind (hb.trans hcn hwt) hs ht hlast hsees (ih hs · hlast hsees htye)
        fun x hx hbt hga hlast hsees => ?_
      have heval : some (Word.ofBool (x == 0)) = (some (Word.ofBool false)).bind fun y =>
          (some (Word.ofBool true)).bind fun z => some (if x ≠ 0 then y else z) := by
        rcases hx.isOf with rfl | rfl <;> rfl
      rw [heval]
      refine (builds_bool hno).yields_bind hcn hbt ht hlast hsees (yields_bool hl hpath hbt hno)
        fun y hy hbu hgb hlast hsees => ?_
      refine (builds_bool hyes).yields_bind hn hbu ht hlast hsees (yields_bool hl hpath hbu hyes)
        fun z hz hbv hgc hlast _ => ?_
      exact yields_choice hl hpath hbv ht hlast ((hga.stays hb.toStays).stays hc.toStays)
        (hgb.stays hc.toStays) hgc hx hy hz
  | @cond c l r s t u v cond a b hcond hleft hr ihc ihl ihr =>
    cases hty with
    | cond htyc htyl htyr =>
      have hc := hcond.answered hs.site
      have ha := hleft.answered (hc.site hs.site)
      have hb := hr.answered (ha.site (hc.site hs.site))
      have hwt := hc.wired hs.site.toWired
      have hn := answered_compute (hb.wired (ha.wired hwt))
        (show Kind.isPlain .condValue = true from rfl) (usable_triple
          (hb.usable _ (ha.usable _ hc.answer)) (hb.usable _ ha.answer) hb.answer)
      have hbn := hb.trans hn (ha.wired hwt)
      refine hcond.yields_bind (ha.trans hbn hwt) hs ht hlast hsees (ihc hs · hlast hsees htyc)
        fun x hx hbt hgc hlast hsees => ?_
      refine hleft.yields_bind hbn hbt ht hlast hsees (ihl hbt · hlast hsees htyl)
        fun y hy hbu hga hlast hsees => ?_
      refine hr.yields_bind hn hbu ht hlast hsees (ihr hbu · hlast hsees htyr)
        fun z hz hbv hgb hlast _ => ?_
      exact yields_choice hl hpath hbv ht hlast ((hgc.stays ha.toStays).stays hb.toStays)
        (hga.stays hb.toStays) hgb hx hy hz

end

end SsaCompiler
