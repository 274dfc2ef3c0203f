import Mathlib.SetTheory.Cardinal.Arithmetic
import SsaCompiler.Compile

/-!
# Names of variables

A builder uses the name of a variable only to tell it from others. So the graph of
a function stays the same when its variables are given other names, as long as
different ones stay different (`Function.compiles_same_under_renaming`).

**Every operation of a builder commutes with a renaming**, in the definitions and in
the placeholders that the builder keeps. The order in which placeholders are
completed is that of their creation, so it is the same under all names.
-/

namespace SsaCompiler

open List

/-! ## Renaming -/

namespace Expr

/-- The variables of an expression. -/
def names : Expr → List String
  | int _ | bool _ => []
  | var name => [name]
  | binary _ lhs rhs => lhs.names ++ rhs.names
  | neg operand | bitNot operand | logicNot operand => operand.names
  | cond condition ifTrue ifFalse => condition.names ++ ifTrue.names ++ ifFalse.names

/-- Rename the variables of an expression. -/
def rename (r : String → String) : Expr → Expr
  | int value => int value
  | bool value => bool value
  | var name => var (r name)
  | binary op lhs rhs => binary op (lhs.rename r) (rhs.rename r)
  | neg operand => neg (operand.rename r)
  | bitNot operand => bitNot (operand.rename r)
  | logicNot operand => logicNot (operand.rename r)
  | cond condition ifTrue ifFalse =>
    cond (condition.rename r) (ifTrue.rename r) (ifFalse.rename r)

end Expr

namespace Stmt

/-- The variables of a statement, those it only declares among them. -/
def names : Stmt → List String
  | skip => []
  | seq first rest => first.names ++ rest.names
  | declare name _ init => name :: (init.map Expr.names).getD []
  | assign name _ value => name :: value.names
  | ifThen condition body | loop condition body => condition.names ++ body.names
  | ifElse condition body otherwise => condition.names ++ body.names ++ otherwise.names
  | ret value => value.names

/-- Rename the variables of a statement. -/
def rename (r : String → String) : Stmt → Stmt
  | skip => skip
  | seq first rest => seq (first.rename r) (rest.rename r)
  | declare name ty init => declare (r name) ty (init.map (Expr.rename r))
  | assign name op value => assign (r name) op (value.rename r)
  | ifThen condition body => ifThen (condition.rename r) (body.rename r)
  | ifElse condition body otherwise =>
    ifElse (condition.rename r) (body.rename r) (otherwise.rename r)
  | loop condition body => loop (condition.rename r) (body.rename r)
  | ret value => ret (value.rename r)

end Stmt

/-- Rename the variables of a function; its own name stays. -/
def Function.rename (r : String → String) (f : Function) : Function :=
  { f with body := f.body.rename r }

/-- Rename a variable; the effect chain has no name. -/
def Slot.rename (r : String → String) : Slot → Slot
  | var name => var (r name)
  | effect => effect

def Placeholder.rename (r : String → String) (p : Placeholder) : Placeholder :=
  { p with slot := p.slot.rename r }

/-- Rename the variables that a builder keeps track of. -/
def Builder.rename (r : String → String) (b : Builder) : Builder :=
  { b with
    defs := b.defs.map fun d => ((d.1.1, d.1.2.rename r), d.2)
    placeholders := b.placeholders.map (Placeholder.rename r) }

variable {r r' : String → String} {b : Builder} {slot : Slot} {block n : NodeId} {op : Operator}

/-! ## Builders -/

namespace Builder

/-- Rename in the builder that a step leaves. -/
abbrev renamed {α : Type} (r : String → String) (x : α × Builder) : α × Builder :=
  (x.1, x.2.rename r)

/-- **A run of steps commutes with a renaming** if each step does. -/
theorem foldlM_rename {α : Type} {f f' : Builder → α → Except Fault Builder} {l : List α}
    (h : ∀ b, ∀ a ∈ l, f' (b.rename r) a = rename r <$> f b a) :
    l.foldlM f' (b.rename r) = rename r <$> l.foldlM f b := by
  induction l generalizing b with
  | nil => rfl
  | cons a l ih =>
    rw [foldlM_cons, foldlM_cons, h b a (.head l), bind_map_left, map_bind]
    exact bind_congr fun b => ih fun b a ha => h b a (.tail _ ha)

/-! ### Steps that use no names -/

variable (b)

@[simp] theorem toDraft_rename : (b.rename r).toDraft = b.toDraft :=
  rfl

@[simp] theorem current_rename : (b.rename r).current = b.current :=
  rfl

@[simp] theorem enter_rename (block : NodeId) :
    (b.rename r).enter block = (b.enter block).rename r :=
  rfl

@[simp] theorem constInt_rename (value : Word) :
    (b.rename r).constInt value = renamed r (b.constInt value) :=
  rfl

@[simp] theorem newBlock_rename (role : String) :
    (b.rename r).newBlock role = renamed r (b.newBlock role) :=
  rfl

@[simp] theorem jump_rename (target : NodeId) :
    (b.rename r).jump target = renamed r (b.jump target) :=
  rfl

@[simp] theorem condJump_rename (cond ifTrue ifFalse : NodeId) :
    (b.rename r).condJump cond ifTrue ifFalse = renamed r (b.condJump cond ifTrue ifFalse) := by
  simp only [condJump, place, withGraph, rename, renamed]

@[simp] theorem isSealed_rename (block : NodeId) : (b.rename r).isSealed block = b.isSealed block :=
  rfl

theorem retire_rename (phi value : NodeId) :
    (b.rename r).retire phi value = (b.retire phi value).rename r :=
  rfl

theorem channel_rename (slot : Slot) : (slot.rename r).channel = slot.channel := by
  cases slot <;> rfl

theorem simplify_rename (bound : Nat) (b : Builder) (phi : NodeId) :
    simplify bound (b.rename r) phi = renamed r (simplify bound b phi) := by
  induction bound generalizing b phi with
  | zero => rfl
  | succ bound ih =>
    -- The users of a merge are looked at in the same order.
    let look (b : Builder) (user : NodeId) : Builder :=
      if (b.graph.kind user).isPhi && (b.forwarded.lookup user).isNone then
        (simplify bound b user).2
      else b
    have hl : ∀ b user, look (b.rename r) user = (look b user).rename r := fun b user => by
      show (if (b.graph.kind user).isPhi && (b.forwarded.lookup user).isNone
        then (simplify bound (b.rename r) user).2 else b.rename r) = _
      rw [ih]
      exact (apply_ite (rename r) _ _ _).symm
    have hs : ∀ (b : Builder) (value : NodeId) (users : List NodeId),
        users.foldl look ((b.rename r).retire phi value)
          = (users.foldl look (b.retire phi value)).rename r := fun b value _ => by
      rw [retire_rename]
      exact foldl_hom (rename r) hl
    unfold simplify
    rw [show (b.rename r).merged phi = b.merged phi from rfl]
    cases b.merged phi with
    | nil =>
      exact congrArg (fun b' : Builder => (b'.resolve b.undefined.1, b')) (hs b.undefined.2 _ _)
    | cons value rest =>
      cases rest with
      | nil => exact congrArg (fun b : Builder => (b.resolve value, b)) (hs b value _)
      | cons => rfl

/-- **A merge is completed alike**, if the reads of its operands are. -/
theorem complete_rename {read : Builder → Slot → NodeId → Except Fault (NodeId × Builder)}
    (hread : ∀ b slot block, read (b.rename r) (slot.rename r) block
      = renamed r <$> read b slot block) (b : Builder) (slot : Slot) (phi : NodeId) :
    complete read (b.rename r) (slot.rename r) phi = renamed r <$> complete read b slot phi := by
  unfold complete
  simp only [map_bind, toDraft_rename]
  rw [foldlM_rename fun b' index _ => ?_, bind_map_left]
  · exact bind_congr fun b => congrArg Except.ok (simplify_rename _ b phi)
  · rw [toDraft_rename]
    cases b'.graph.predecessor? (b.graph.blockOf phi) index with
    | none => rfl
    | some predecessor =>
      simp only [hread, bind_map_left, map_bind]
      rfl

section Named

variable (hr : Function.Injective r) (b : Builder) (slot : Slot) (block : NodeId)

include hr

theorem rename_slot_inj {slot' : Slot} : slot.rename r = slot'.rename r ↔ slot = slot' := by
  cases slot <;> cases slot' <;> simp [Slot.rename, hr.eq_iff]

theorem definition?_rename :
    (b.rename r).definition? (slot.rename r) block = b.definition? slot block := by
  show List.lookup _ (b.defs.map _) = List.lookup _ b.defs
  induction b.defs with
  | nil => rfl
  | cons d defs ih =>
    have hkey : ((block, slot.rename r) == (d.1.1, d.1.2.rename r)) = ((block, slot) == d.1) := by
      rw [Bool.eq_iff_iff, beq_iff_eq, beq_iff_eq, Prod.ext_iff, Prod.ext_iff]
      exact and_congr_right fun _ => rename_slot_inj hr _
    rw [map_cons, lookup_cons, lookup_cons, hkey, ih]

theorem readWithin_rename (bound : Nat) : readWithin bound (b.rename r) (slot.rename r) block
      = renamed r <$> readWithin bound b slot block := by
  induction bound generalizing b slot block with
  | zero => rfl
  | succ bound ih =>
    unfold readWithin
    rw [definition?_rename hr, toDraft_rename, isSealed_rename]
    cases b.definition? slot block with
    | some value => rfl
    | none =>
      -- A merge is defined, under either name, before its operands are read.
      have hm := fun phi => complete_rename ih
        ((b.place (.phi slot.channel) block []).2.write slot block phi) slot phi
      simp only [channel_rename]
      cases b.isSealed block with
      | false => simp [rename, renamed, place, withGraph, write, Placeholder.rename]
      | true =>
        rw [if_pos rfl, if_pos rfl]
        rcases b.graph.operands block with _ | ⟨jump, _ | _⟩
        on_goal 2 =>
          simp only [ih, bind_map_left, map_bind]
          rfl
        all_goals
          refine (congrArg (· >>= _) (hm _)).trans ?_
          simp only [bind_map_left, map_bind]
          rfl

theorem read_rename : (b.rename r).read (slot.rename r) block = renamed r <$> b.read slot block :=
  readWithin_rename hr b slot block _

/-- **The placeholders of a block are completed alike**, in the same order. -/
theorem completeWhere_rename {which : Slot → Bool}
    (hw : ∀ slot, which (slot.rename r) = which slot) :
    completeWhere which (b.rename r) block = rename r <$> completeWhere which b block := by
  have hf : ∀ due : Placeholder → Bool, (∀ p : Placeholder, due (p.rename r) = due p) →
      (b.rename r).placeholders.filter due = (b.placeholders.filter due).map (.rename r) :=
    fun due hd => filter_map.trans
      (congrArg (fun due => (b.placeholders.filter due).map (Placeholder.rename r)) (funext hd))
  have hd : ∀ p : Placeholder, ((p.rename r).block == block && which (p.rename r).slot)
      = (p.block == block && which p.slot) := fun p =>
    congrArg (p.block == block && ·) (hw p.slot)
  unfold completeWhere
  simp only [partition_eq_filter_filter]
  rw [hf (not ∘ _) fun p => congrArg not (hd p), hf _ hd, foldlM_map]
  show List.foldlM _ (rename r { b with placeholders := b.placeholders.filter (not ∘ _) }) _ = _
  refine foldlM_rename fun b p _ => ?_
  rw [Placeholder.rename, complete_rename (read_rename hr)]
  cases complete read b p.slot p.phi <;> rfl

theorem sealBlock_rename :
    (b.rename r).sealBlock block = rename r <$> b.sealBlock block := by
  unfold sealBlock
  rw [completeWhere_rename hr _ _ fun slot => by cases slot <;> rfl]
  simp only [bind_map_left, map_bind]
  refine bind_congr fun b => ?_
  rw [completeWhere_rename hr _ _ fun slot => by cases slot <;> rfl, bind_map_left]
  rfl

theorem binary_rename (op : BinOp) (lhs rhs : NodeId) :
    (b.rename r).binary op lhs rhs = renamed r <$> b.binary op lhs rhs := by
  unfold binary
  split
  · rw [show Slot.effect = Slot.effect.rename r from rfl, current_rename, read_rename hr]
    simp only [bind_map_left, map_bind]
    rfl
  · rfl

theorem ret_rename (result : NodeId) :
    (b.rename r).ret result = renamed r <$> b.ret result := by
  unfold ret
  rw [current_rename, show Slot.effect = Slot.effect.rename r from rfl, read_rename hr]
  simp only [bind_map_left, map_bind]
  rfl

theorem operate_rename (op : Operator) (lhs rhs : NodeId) :
    (b.rename r).operate op lhs rhs = renamed r <$> b.operate op lhs rhs := by
  rcases op with op | op | op
  · exact binary_rename hr b _ lhs rhs
  · rfl
  · cases op <;> rfl

end Named

end Builder

/-! ## Functions -/

section Named

variable (hr : Function.Injective r)

include hr

open Builder

theorem Expr.build_rename (e : Expr) (b : Builder) :
    (e.rename r).build (b.rename r) = renamed r <$> e.build b := by
  induction e generalizing b with
  | int | bool => rfl
  | var name => exact read_rename hr b (.var name) b.current
  | binary op lhs rhs ihl ihr =>
    simp only [rename, build, ihl, ihr, bind_map_left, map_bind, operate_rename hr]
  | neg operand ih | bitNot operand ih =>
    simp only [rename, build, ih, bind_map_left, map_bind, constInt_rename, binary_rename hr]
  | logicNot | cond =>
    simp only [rename, build, *, bind_map_left, map_bind]
    rfl

theorem Stmt.enterSealed_rename (b : Builder) (block : NodeId) :
    enterSealed (b.rename r) block = Builder.rename r <$> enterSealed b block := by
  unfold enterSealed
  rw [sealBlock_rename hr, bind_map_left, map_bind]
  rfl

omit hr in
theorem Stmt.leave_rename (target : NodeId) (x : Flow × Builder) :
    leave target (renamed r x) = (leave target x).rename r := by
  rcases x with ⟨_ | _, _⟩ <;> rfl

theorem Stmt.build_rename (body : Stmt) (b : Builder) :
    (body.rename r).build (b.rename r) = renamed r <$> body.build b := by
  induction body generalizing b with
  | skip => rfl
  | seq first rest ihf ihr =>
    simp only [rename, build, ihf, bind_map_left, map_bind]
    refine bind_congr fun x => ?_
    rcases x with ⟨_ | _, b⟩
    · exact ihr b
    · rfl
  | declare name ty init =>
    cases init with
    | none => rfl
    | some init =>
      simp only [rename, Option.map_some, build, init.build_rename hr, bind_map_left, map_bind]
      rfl
  | assign name op value =>
    cases op with
    | none =>
      simp only [rename, build, value.build_rename hr, bind_map_left, map_bind]
      rfl
    | some op =>
      have hread := fun b block => read_rename hr b (.var name) block
      simp only [Slot.rename] at hread
      simp only [rename, build, value.build_rename hr, bind_map_left, map_bind, hread,
        current_rename, operate_rename hr]
      rfl
  | ifThen | ifElse | loop =>
    simp only [rename, build, Expr.build_rename hr, *, bind_map_left, map_bind, newBlock_rename,
      jump_rename, enter_rename, condJump_rename, enterSealed_rename hr, leave_rename,
      sealBlock_rename hr]
    rfl
  | ret value =>
    simp only [rename, build, value.build_rename hr, bind_map_left, map_bind, ret_rename hr]
    rfl

omit hr in
theorem Builder.finish_rename (b : Builder) : (b.rename r).finish = b.finish := by
  unfold finish
  simp [Builder.rename]

theorem Function.toGraph_rename_of_injective (f : Function) : (f.rename r).toGraph = f.toGraph := by
  have hb := f.body.build_rename hr (.init f.name true)
  rw [show (Builder.init f.name true).rename r = .init f.name true from rfl] at hb
  unfold toGraph
  simp only [rename, hb, bind_map_left, finish_rename]
  rfl

end Named

/-! ## Names that occur -/

theorem Expr.rename_congr {e : Expr} (h : ∀ name ∈ e.names, r name = r' name) :
    e.rename r = e.rename r' := by
  induction e <;> simp_all [rename, names]

theorem Stmt.rename_congr {body : Stmt} (h : ∀ name ∈ body.names, r name = r' name) :
    body.rename r = body.rename r' := by
  induction body with
  | declare name ty init =>
    cases init <;> simp_all [rename, names, @Expr.rename_congr r r']
  | _ => simp_all [rename, names, @Expr.rename_congr r r']

/-- **A renaming that tells finitely many names apart extends to one that tells all
names apart.** -/
theorem exists_injective_eqOn {names : List String} (h : Set.InjOn r {name | name ∈ names}) :
    ∃ r', Function.Injective r' ∧ ∀ name ∈ names, r name = r' name := by
  have hfinite : Finite {name | name ∈ names} := names.finite_toSet
  obtain ⟨r', hr'⟩ := Cardinal.extend_function_of_lt ⟨_, h.injective⟩
    ((Cardinal.lt_aleph0_of_finite _).trans_le (Cardinal.aleph0_le_mk String)) ⟨.refl _⟩
  exact ⟨r', r'.injective, fun name hn => (hr' ⟨name, hn⟩).symm⟩

theorem Function.toGraph_rename {f : Function} (h : Set.InjOn r {name | name ∈ f.body.names}) :
    (f.rename r).toGraph = f.toGraph := by
  obtain ⟨r', hr', he⟩ := exists_injective_eqOn h
  rw [rename, Stmt.rename_congr he]
  exact toGraph_rename_of_injective hr' f

theorem Compile.function_rename {f : Function} (o : Options)
    (h : Set.InjOn r {name | name ∈ f.body.names}) :
    Compile.functionOrReport o (f.rename r) = Compile.functionOrReport o f := by
  unfold Compile.functionOrReport Compile.function
  rw [Function.toGraph_rename h]
  rfl

/-- **Names of variables do not matter.** When the variables of each function of a
program are given new names, different ones for different variables, all graphs
stay the same, with their counts and logs; and the program compiles to the same
text, in any session. -/
theorem Function.compiles_same_under_renaming (p : Program) (r : Function → String → String)
    (h : ∀ f ∈ p, Set.InjOn (r f) {name | name ∈ f.body.names}) :
    (∀ f ∈ p, (f.rename (r f)).toGraph = f.toGraph) ∧
      ∀ o, Compile.program o (p.map fun f => f.rename (r f)) = Compile.program o p := by
  refine ⟨fun f hf => toGraph_rename (h f hf), fun o => ?_⟩
  have hcodes : (p.map fun f => f.rename (r f)).mapM (Compile.functionOrReport o)
      = p.mapM (Compile.functionOrReport o) := by
    induction p with
    | nil => rfl
    | cons f p ih =>
      rw [map_cons, mapM_cons, mapM_cons, Compile.function_rename o (h f (.head p)),
        ih fun f hf => h f (.tail _ hf)]
  unfold Compile.program
  rw [hcodes, length_map]

/-- The two variables of a loop are swapped. The head of the loop reads both of them
before its last jump is known. -/
theorem Function.swapped_loop_compiles_same :
    let f : Function := ⟨"f", .seq (.assign "x" none (.int 1))
      (.seq (.loop (.binary (.compare .less) (.var "x") (.var "y"))
        (.seq (.assign "x" (some (.arith .add)) (.var "x"))
          (.assign "y" (some (.arith .sub)) (.int 1))))
        (.ret (.binary (.arith .sub) (.var "x") (.var "y"))))⟩
    let swap name := if name = "x" then "y" else if name = "y" then "x" else name
    f.rename swap ≠ f ∧ (f.rename swap).toGraph = f.toGraph ∧
      Compile.program {} [f.rename swap] = Compile.program {} [f] := by
  intro f swap
  have hswap : Function.Injective swap := fun a b h => by grind
  obtain ⟨hgraph, hprogram⟩ := Function.compiles_same_under_renaming [f] (fun _ => swap)
    fun _ _ => hswap.injOn
  exact ⟨by decide, hgraph f (.head _), hprogram {}⟩

end SsaCompiler
