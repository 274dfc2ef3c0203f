import SsaCompiler.Proofs.Builder.Control

/-!
# Scripts

A **script** is a list of requests that is written before anything is answered. It
uses names for the nodes it does not know: the names 0 to 3 stand for the nodes that
are there from the beginning, and the name `i + 4` stands for what is answered to the
request at place `i`.

Which blocks a script makes, which edges lead from one to another and for which block
a value is asked can be read off the script, whatever the answers are. So the
protocol is a property of the script alone (`Script.Orderly`): a block is ended once
and is written no more after that, no edge leads to a sealed block, **a value is used
only where the block for which it was asked dominates**, and the blocks in use are
sealed in the end. Where a value lies in the graph may depend on what else is there;
the block for which it was asked does not.
-/

namespace SsaCompiler

open List
open Graph (startBlock endBlock)

open Builder (Request)

variable {b : Builder} {n : NodeId} {path : Path}

/-! ## Requests about names -/

namespace Builder.Request

/-- The same request about other nodes. -/
def rename (ν : NodeId → NodeId) : Request → Request
  | newBlock role => newBlock role
  | enter block => enter (ν block)
  | constInt value => constInt value
  | constBool value => constBool value
  | undefined => undefined
  | binary op lhs rhs => binary op (ν lhs) (ν rhs)
  | compare op lhs rhs => compare op (ν lhs) (ν rhs)
  | condValue cond ifTrue ifFalse => condValue (ν cond) (ν ifTrue) (ν ifFalse)
  | jump target => jump (ν target)
  | condJump cond ifTrue ifFalse => condJump (ν cond) (ν ifTrue) (ν ifFalse)
  | ret result => ret (ν result)
  | write slot block value => write slot (ν block) (ν value)
  | read slot block => read slot (ν block)
  | seals block => seals (ν block)

deriving instance DecidableEq for Request

/-- The role of the block that a request makes. -/
def role? : Request → Option String
  | newBlock role => some role
  | _ => none

theorem role?_eq_some {r : Request} {role : String} : r.role? = some role ↔ r = .newBlock role := by
  cases r <;> simp [role?]

/-- What a request uses nodes as. -/
def takes : Request → Channel
  | write slot _ _ => slot.channel
  | _ => .value

/-- What a request answers, unless that is a block or a jump. -/
def answers : Request → Option Channel
  | constInt _ | constBool _ | undefined | binary _ _ _ | compare _ _ _ | condValue _ _ _ =>
    some .value
  | read slot _ => some slot.channel
  | _ => none

/-- The block where a request uses nodes. -/
def site (current : NodeId) : Request → NodeId
  | write _ block _ => block
  | _ => current

/-- The blocks that a request writes in or ends. -/
def alters (current : NodeId) : Request → List NodeId
  | write _ block _ => [block]
  | binary op _ _ => if op.hasEffect then [current] else []
  | jump _ | condJump _ _ _ | ret _ => [current]
  | _ => []

/-- The blocks that a request reads, writes or gives nodes to. -/
def occupies (current : NodeId) : Request → List NodeId
  | read _ block | write _ block _ => [block]
  | binary _ _ _ | compare _ _ _ | condValue _ _ _ | jump _ | condJump _ _ _ | ret _ => [current]
  | _ => []

variable (ν : NodeId → NodeId) (r : Request)

@[simp] theorem uses_rename : (r.rename ν).uses = r.uses.map ν := by
  cases r <;> rfl

theorem targets_rename (hend : ν endBlock = endBlock) :
    (r.rename ν).targets = r.targets.map ν := by
  cases r <;> first | rfl | exact congrArg (fun n => [n]) hend.symm

theorem blocks_rename (hend : ν endBlock = endBlock) :
    (r.rename ν).blocks = r.blocks.map ν := by
  cases r <;> first | rfl | exact congrArg (fun n => [n]) hend.symm

theorem next_rename (current : NodeId) : (r.rename ν).next (ν current) = ν (r.next current) := by
  cases r <;> rfl

theorem place_rename {current : NodeId} (h : b.current = ν current) :
    (r.rename ν).place b = ν (r.site current) := by
  cases r <;> first | rfl | exact h

theorem touches_rename {current : NodeId} (h : b.current = ν current) :
    (r.rename ν).touches b = (r.alters current).map ν := by
  cases r with
  | binary op lhs rhs =>
    show (if op.hasEffect then [b.current] else []) = (if op.hasEffect then [current] else []).map ν
    rw [h]
    split <;> rfl
  | jump | condJump | ret => exact congrArg (fun n => [n]) h
  | _ => rfl

theorem home_rename (hs : ν startBlock = startBlock) (current : NodeId) :
    (r.rename ν).home (ν current) = ν (r.home current) := by
  cases r <;> first | rfl | exact hs.symm

theorem answers_rename : (r.rename ν).answers = r.answers := by
  cases r <;> rfl

theorem kind?_rename : (r.rename ν).kind? = r.kind? := by
  cases r <;> rfl

theorem rename_congr {ν ν' : NodeId → NodeId} {r : Request}
    (h : ∀ n ∈ r.uses ++ r.blocks, ν n = ν' n) : r.rename ν = r.rename ν' := by
  cases r <;> simp_all [rename, uses, blocks, targets]

/-- **What is answered** is a node that may be shared, or the result of an operation
that may trap, or it is read. -/
theorem cases_of_answers {r : Request} {channel : Channel} (h : r.answers = some channel) :
    (∃ kind, r.kind? = some kind) ∨ (∃ op lhs rhs, r = .binary op lhs rhs ∧ op.hasEffect) ∨
      ∃ slot block, r = .read slot block := by
  cases r with
  | constInt | constBool | undefined | compare | condValue => exact .inl ⟨_, rfl⟩
  | binary op lhs rhs =>
    cases hop : op.hasEffect with
    | false => exact .inl ⟨.binary op, by simp [kind?, hop]⟩
    | true => exact .inr (.inl ⟨op, lhs, rhs, rfl, hop⟩)
  | read slot block => exact .inr (.inr ⟨slot, block, rfl⟩)
  | _ => cases h

theorem mem_blocks_of_mem_targets {r : Request} (h : n ∈ r.targets) : n ∈ r.blocks := by
  cases r <;> first | exact h | cases h

theorem mem_blocks_of_mem_alters {r : Request} {current : NodeId} (h : n ∈ r.alters current) :
    n ∈ r.blocks ∨ n = current := by
  cases r with
  | write => exact .inl h
  | jump | condJump | ret => exact .inr (mem_singleton.1 h)
  | binary op =>
    have h : n ∈ if op.hasEffect then [current] else [] := h
    split at h
    · exact .inr (mem_singleton.1 h)
    · cases h
  | _ => cases h

theorem current_mem_occupies {r : Request} (current : NodeId) (h : n ∈ r.targets) :
    current ∈ r.occupies current := by
  cases r <;> first | exact mem_singleton_self _ | cases h

end Builder.Request

/-! ## What can be read off a script -/

/-- **A list of requests about names.** -/
abbrev Script := List Request

namespace Script

/-- The request whose answer a name stands for. -/
def step? (script : Script) : NodeId → Option Request
  | i + 4 => script[i]?
  | _ => none

/-- The block that is current after a script. -/
def current (script : Script) : NodeId :=
  script.foldl Request.next startBlock

/-- The edges that a script makes when it goes on from a block, the first ones
first: where they come from and where they lead. -/
def edgesFrom : NodeId → Script → List (NodeId × NodeId)
  | _, [] => []
  | block, r :: rest => r.targets.map (block, ·) ++ edgesFrom (r.next block) rest

/-- **The predecessors of a block**, one for each edge into it. -/
def preds (script : Script) (name : NodeId) : List NodeId :=
  ((edgesFrom startBlock script).filter (·.2 = name)).map (·.1)

/-- The names of blocks. -/
def IsBlock (script : Script) (name : NodeId) : Prop :=
  name = startBlock ∨ name = endBlock ∨ ∃ role, script.step? name = some (.newBlock role)

/-- The blocks that a script has sealed. -/
def IsSealed (script : Script) (name : NodeId) : Prop :=
  name = startBlock ∨ Request.seals name ∈ script

/-- The blocks that a script has ended. -/
def Ended (script : Script) (name : NodeId) : Prop :=
  ∃ target, (name, target) ∈ edgesFrom startBlock script

/-- A name stands for a value, or for an effect. -/
def Answers (script : Script) (name : NodeId) (channel : Channel) : Prop :=
  ∃ r, script.step? name = some r ∧ r.answers = some channel

/-- **The block for which a node is asked.** -/
def place (script : Script) (name : NodeId) : NodeId :=
  (script.step? name).elim name (·.home (current (script.take (name - 4))))

/-- **A request keeps to the protocol of a script**, when it comes after the requests
in `before`. -/
structure Keeps (script before : Script) (r : Request) : Prop where
  uses : ∀ n ∈ r.uses, before.Answers n r.takes
  blocks : ∀ n ∈ r.blocks, before.IsBlock n
  targets : ∀ n ∈ r.targets, ¬ before.IsSealed n
  opened : ∀ n ∈ r.alters before.current, ¬ before.Ended n
  dominated : ∀ n ∈ r.uses, Dominates script.preds (script.place n) (r.site before.current)
  isSealed : ∀ n ∈ r.occupies before.current, script.IsSealed n

/-- **A script keeps to the protocol.** -/
def Orderly (script : Script) : Prop :=
  ∀ i r, script[i]? = some r → Keeps script (script.take i) r

variable {script before : Script} {r : Request} {name n i : NodeId} {channel : Channel}

theorem step?_add_four (script : Script) (i : Nat) : script.step? (i + 4) = script[i]? := rfl

theorem exists_of_step? (h : script.step? name = some r) :
    ∃ i, name = i + 4 ∧ script[i]? = some r := by
  unfold step? at h
  split at h
  · exact ⟨_, rfl, h⟩
  · cases h

theorem place_eq (h : script[i]? = some r) :
    script.place (i + 4) = r.home (current (script.take i)) := by
  unfold place
  rw [step?_add_four, h]
  rfl

/-! ## One more request -/

theorem take_succ (h : script[i]? = some r) : script.take (i + 1) = script.take i ++ [r] := by
  rw [take_add_one, h]
  rfl

theorem current_concat (script : Script) (r : Request) :
    current (script ++ [r]) = r.next script.current := by
  unfold current
  rw [foldl_concat]

theorem edgesFrom_append (block : NodeId) (before after : Script) :
    edgesFrom block (before ++ after) =
      edgesFrom block before ++ edgesFrom (before.foldl Request.next block) after := by
  induction before generalizing block with
  | nil => rfl
  | cons r rest ih =>
    rw [cons_append, edgesFrom, edgesFrom, ih, append_assoc]
    rfl

theorem edgesFrom_concat (script : Script) (r : Request) : edgesFrom startBlock (script ++ [r]) =
      edgesFrom startBlock script ++ r.targets.map (script.current, ·) := by
  rw [edgesFrom_append, edgesFrom, edgesFrom, append_nil]
  rfl

theorem preds_concat (script : Script) (r : Request) (name : NodeId) : preds (script ++ [r]) name =
      script.preds name ++ List.replicate (r.targets.count name) script.current := by
  have hnew : ∀ targets : List NodeId,
      ((targets.map (script.current, ·)).filter (·.2 = name)).map (·.1) =
        List.replicate (targets.count name) script.current := fun targets => by
    induction targets with
    | nil => rfl
    | cons target rest ih =>
      by_cases he : target = name
      · simp [he, ih, replicate_succ]
      · simp [he, ih]
  unfold preds
  rw [edgesFrom_concat, filter_append, map_append, hnew]

theorem step?_concat (script : Script) (r : Request) (name : NodeId) :
    step? (script ++ [r]) name = if name = script.length + 4 then some r else script.step? name := by
  match name with
  | i + 4 =>
    rw [step?_add_four, step?_add_four, getElem?_append]
    split
    · rw [if_neg fun he => Nat.ne_of_lt ‹_› (Nat.add_right_cancel he)]
    · rename_i hle
      split
      · rename_i he
        rw [Nat.add_right_cancel he, Nat.sub_self]
        rfl
      · rename_i hne
        have hlt : script.length < i :=
          Nat.lt_of_le_of_ne (not_lt.1 hle) fun he => hne (congrArg (· + 4) he.symm)
        rw [getElem?_eq_none hlt.le, getElem?_eq_none (Nat.le_sub_of_add_le' hlt)]
  | 0 | 1 | 2 | 3 => exact (if_neg nofun).symm

theorem step?_length (script : Script) : script.step? (script.length + 4) = none :=
  getElem?_eq_none le_rfl

theorem isBlock_concat : IsBlock (script ++ [r]) name ↔
      script.IsBlock name ∨ ∃ role, r = .newBlock role ∧ name = script.length + 4 := by
  unfold IsBlock
  rw [step?_concat]
  split
  · rename_i he
    simp only [he, step?_length]
    simp [or_assoc]
  · simp_all

theorem isSealed_concat :
    IsSealed (script ++ [r]) name ↔ script.IsSealed name ∨ r = .seals name := by
  unfold IsSealed
  rw [mem_append, mem_singleton, or_assoc, eq_comm (b := r)]

theorem ended_concat :
    Ended (script ++ [r]) name ↔ script.Ended name ∨ r.targets ≠ [] ∧ name = script.current := by
  unfold Ended
  simp only [edgesFrom_concat, mem_append, mem_map, Prod.mk.injEq, exists_or]
  refine or_congr_right ⟨?_, ?_⟩
  · rintro ⟨target, _, hm, he, -⟩
    exact ⟨ne_nil_of_mem hm, he.symm⟩
  · rintro ⟨hne, he⟩
    obtain ⟨target, hm⟩ := exists_mem_of_ne_nil _ hne
    exact ⟨target, target, hm, he.symm, rfl⟩

theorem answers_concat : Answers (script ++ [r]) name channel ↔
      script.Answers name channel ∨ name = script.length + 4 ∧ r.answers = some channel := by
  unfold Answers
  rw [step?_concat]
  split
  · rename_i he
    simp [he, step?_length]
  · simp_all

/-! ## Parts of a script -/

/-- An edge was made by a request, from the block that was current. -/
theorem exists_of_mem_edgesFrom {block target : NodeId}
    (h : (name, target) ∈ edgesFrom block script) :
    ∃ i r, script[i]? = some r ∧ name = (script.take i).foldl Request.next block ∧
      target ∈ r.targets := by
  induction script generalizing block with
  | nil => cases h
  | cons r rest ih =>
    rw [edgesFrom, mem_append, mem_map] at h
    rcases h with ⟨_, hm, he⟩ | h
    · cases he
      exact ⟨0, r, rfl, rfl, hm⟩
    · obtain ⟨i, r', hr', hn, hm⟩ := ih h
      exact ⟨i + 1, r', hr', hn, hm⟩

theorem exists_of_mem_preds (h : n ∈ script.preds name) :
    ∃ i r, script[i]? = some r ∧ n = current (script.take i) ∧ name ∈ r.targets := by
  obtain ⟨⟨_, target⟩, hedge, rfl⟩ := mem_map.1 h
  obtain ⟨hmem, he⟩ := mem_filter.1 hedge
  obtain rfl := of_decide_eq_true he
  exact exists_of_mem_edgesFrom hmem

theorem step?_of_take (h : step? (script.take i) name = some r) :
    script.step? name = some r ∧ name < i + 4 := by
  obtain ⟨j, rfl, hj⟩ := exists_of_step? h
  rw [getElem?_take] at hj
  split at hj
  · exact ⟨hj, Nat.add_lt_add_right ‹_› 4⟩
  · cases hj

theorem IsBlock.of_take (h : IsBlock (script.take i) name) : script.IsBlock name :=
  h.imp_right (Or.imp_right fun ⟨role, hr⟩ => ⟨role, (step?_of_take hr).1⟩)

theorem IsBlock.lt_of_take (h : IsBlock (script.take i) name) : name < i + 4 := by
  rcases h with rfl | rfl | ⟨role, hr⟩
  · exact Nat.succ_pos _
  · exact Nat.lt_of_lt_of_le (by decide) (Nat.le_add_left 4 i)
  · exact (step?_of_take hr).2

theorem Answers.of_take (h : Answers (script.take i) name channel) :
    script.Answers name channel ∧ name < i + 4 :=
  have ⟨r, hr, hc⟩ := h
  ⟨⟨r, (step?_of_take hr).1, hc⟩, (step?_of_take hr).2⟩

namespace Orderly

variable (h : script.Orderly)

include h

theorem isBlock_current {i : Nat} (hi : i ≤ script.length) :
    IsBlock (script.take i) (current (script.take i)) := by
  induction i with
  | zero => exact .inl rfl
  | succ i ih =>
    have hr := List.getElem?_eq_getElem hi
    generalize script[i] = r at hr
    rw [take_succ hr, current_concat, isBlock_concat]
    cases r with
    | enter block => exact .inl ((h i _ hr).blocks block (.head _))
    | _ => exact .inl (ih (Nat.le_of_lt hi))

theorem isBlock_pred (hn : n ∈ script.preds name) : script.IsBlock n := by
  obtain ⟨i, r, hr, rfl, -⟩ := exists_of_mem_preds hn
  exact (h.isBlock_current (Nat.le_of_lt (List.getElem?_eq_some_iff.1 hr).1)).of_take

theorem isBlock_of_mem_preds (hn : n ∈ script.preds name) : script.IsBlock name := by
  obtain ⟨i, r, hr, -, hmem⟩ := exists_of_mem_preds hn
  exact ((h i r hr).blocks name (Request.mem_blocks_of_mem_targets hmem)).of_take

theorem preds_of_not_isBlock {i : Nat} (hname : ¬ IsBlock (script.take i) name) :
    preds (script.take i) name = [] := by
  refine eq_nil_iff_forall_not_mem.2 fun n hn => hname ?_
  obtain ⟨j, r, hr, -, hmem⟩ := exists_of_mem_preds hn
  rw [getElem?_take] at hr
  split at hr
  · rename_i hlt
    have hb := (h j r hr).blocks name (Request.mem_blocks_of_mem_targets hmem)
    rw [← Nat.min_eq_left hlt.le, ← take_take] at hb
    exact hb.of_take
  · cases hr

theorem isBlock_of_isSealed {i : Nat} (hn : IsSealed (script.take i) name) :
    IsBlock (script.take i) name := by
  rcases hn with rfl | hmem
  · exact .inl rfl
  · obtain ⟨j, hj⟩ := mem_iff_getElem?.1 hmem
    rw [getElem?_take] at hj
    split at hj
    · rename_i hlt
      have hb := (h j _ hj).blocks name (.head _)
      rw [← Nat.min_eq_left hlt.le, ← take_take] at hb
      exact hb.of_take
    · cases hj

theorem isBlock_of_visits (hp : IsPath script.preds path) (hv : Path.Visits path name) :
    script.IsBlock name := by
  induction hp with
  | nil => exact .inl hv
  | cons _ he ih =>
    rcases hv with rfl | hv
    · exact h.isBlock_of_mem_preds (mem_of_getElem? he)
    · exact ih hv

theorem isBlock_last (hp : IsPath script.preds path) : script.IsBlock (Path.last path) :=
  h.isBlock_of_visits hp (Path.visits_last path)

/-- **A path to a sealed block goes through sealed blocks**, since all the others on
it are ended. -/
theorem isSealed_of_visits (hp : IsPath script.preds path)
    (hl : script.IsSealed (Path.last path)) (hv : Path.Visits path name) :
    script.IsSealed name := by
  induction hp with
  | nil => exact .inl hv
  | cons _ hedge ih =>
    rcases hv with rfl | hv
    · exact hl
    · obtain ⟨i, r, hr, he, hmem⟩ := exists_of_mem_preds (mem_of_getElem? hedge)
      refine ih ?_ hv
      rw [he]
      exact (h i r hr).isSealed _ (Request.current_mem_occupies _ hmem)

end Orderly

/-! ## Scripts that can be checked -/

instance (script : Script) (name : NodeId) : Decidable (script.IsBlock name) :=
  have : Decidable (∃ role, script.step? name = some (.newBlock role)) :=
    decidable_of_iff (((script.step? name).bind Request.role?).isSome = true) <| by
      simp only [Option.isSome_iff_exists, Option.bind_eq_some_iff, Request.role?_eq_some,
        exists_eq_right]
  inferInstanceAs (Decidable (_ ∨ _ ∨ _))

instance (script : Script) (name : NodeId) : Decidable (script.IsSealed name) :=
  inferInstanceAs (Decidable (_ ∨ _))

instance (script : Script) (name : NodeId) : Decidable (script.Ended name) :=
  decidable_of_iff (∃ edge ∈ edgesFrom startBlock script, edge.1 = name) <| by
    simp [Ended]

instance (script : Script) (name : NodeId) (channel : Channel) :
    Decidable (script.Answers name channel) :=
  decidable_of_iff ((script.step? name).bind Request.answers = some channel)
    Option.bind_eq_some_iff

/-- **A request keeps to the protocol and stays near**: what it uses was asked for the
start block, for the block where it is used, or for the only predecessor of that. -/
def KeepsNear (script before : Script) (r : Request) : Prop :=
  (∀ n ∈ r.uses, before.Answers n r.takes) ∧ (∀ n ∈ r.blocks, before.IsBlock n) ∧
  (∀ n ∈ r.targets, ¬ before.IsSealed n) ∧ (∀ n ∈ r.alters before.current, ¬ before.Ended n) ∧
  (∀ n ∈ r.uses, script.place n = startBlock ∨
    script.place n = r.site before.current ∨ r.site before.current ≠ startBlock ∧
      ∀ pred ∈ script.preds (r.site before.current), pred = script.place n) ∧
  ∀ n ∈ r.occupies before.current, script.IsSealed n

instance (script before : Script) (r : Request) : Decidable (script.KeepsNear before r) :=
  inferInstanceAs (Decidable (_ ∧ _ ∧ _ ∧ _ ∧ _ ∧ _))

theorem KeepsNear.keeps (h : script.KeepsNear before r) : Keeps script before r := by
  obtain ⟨hu, hb, ht, ho, hnear, hs⟩ := h
  refine ⟨hu, hb, ht, ho, fun n hn => ?_, hs⟩
  rcases hnear n hn with he | he | ⟨hne, hp⟩
  · exact he ▸ startBlock_dominates _ _
  · exact he ▸ .refl _ _
  · refine dominates_of_edges hne fun index pred hpred => ?_
    exact hp pred (mem_of_getElem? hpred) ▸ .refl _ _

/-- A script that stays near keeps to the protocol. -/
theorem orderly_of_near
    (h : ∀ i, (hi : i < script.length) → script.KeepsNear (script.take i) script[i]) :
    script.Orderly := fun i r hr => by
  obtain ⟨hi, rfl⟩ := List.getElem?_eq_some_iff.1 hr
  exact (h i hi).keeps

end Script

end SsaCompiler
