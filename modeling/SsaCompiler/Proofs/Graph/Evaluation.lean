import SsaCompiler.Proofs.Builder.Construction
import SsaCompiler.Proofs.Graph.Assignment

/-!
# Words along a path

Along a control path the nodes of a graph have words. A node of the block that
was entered last is computed there from its arguments. A merge of that block has
the word that its operand for the edge had at the end of the path before, and a
node of another block keeps the word it had. `Graph.Gives` says so, one rule
each.

What a node may be computed from can be restricted by a **guard** on the words
of its arguments. A graph without conditional values needs none; before lowering
the guard tells that choices are made between words of the right type.

There is one word at most (`Graph.Gives.unique`). To find the word of a node, one
may first look for where it comes from (`Graph.gives_of_chase`).

A run of a graph is a path. Control **comes along** a path if no division traps in
the blocks before its end, and every jump on a condition has gone where the word of
the condition leads (`Graph.Comes`). A run **ends** where control comes to a return,
or to a division that traps (`Graph.Ends`).
-/

namespace SsaCompiler

open List Option Kind

variable {k : Kind} {w : Word} {origin : Origin} {path : Path}

namespace Kind

/-- The number of operands from which the word of a node is computed. -/
def argumentCount : Kind → Nat
  | binary _ | compare _ => 2
  | condValue => 3
  | proj .value => 1
  | _ => 0

/-- **The word of a node** of a kind, from the words of its arguments. The result of
an operation is the word of the operation. -/
def result? : Kind → List Word → Option Word
  | proj .value, [w] => some w
  | k, words => k.word? words

end Kind

/-- **The nodes from which the word of a node is computed.** -/
def Graph.arguments (g : Graph) (n : NodeId) : List NodeId :=
  (g.operands n).take (g.kind n).argumentCount

/-- The part of a path that consists of its first edges. -/
def Path.upTo (path : Path) (steps : Nat) : Path :=
  path.drop (path.length - steps)

/-- **A node has a word at the end of a path.** -/
inductive Graph.Gives (g : Graph) (guard : NodeId → List Word → Prop) : Path → NodeId → Word → Prop
  | pass {edge : NodeId × Nat} {path : Path} {n : NodeId} {w : Word} (hne : g.blockOf n ≠ edge.1)
      (h : Gives g guard path n w) : Gives g guard (edge :: path) n w
  | merge {edge : NodeId × Nat} {path : Path} {n a : NodeId} {w : Word}
      (hblock : g.blockOf n = edge.1) (hphi : (g.kind n).isPhi = true)
      (ha : (g.operands n)[edge.2]? = some a) (h : Gives g guard path a w) :
      Gives g guard (edge :: path) n w
  | here {path : Path} {n : NodeId} {V : NodeId → Word} {w : Word}
      (hblock : g.blockOf n = Path.last path) (hargs : ∀ a ∈ g.arguments n, Gives g guard path a (V a))
      (hguard : guard n ((g.arguments n).map V))
      (hw : (g.kind n).result? ((g.arguments n).map V) = some w) : Gives g guard path n w

theorem Kind.result?_of_isPhi (h : k.isPhi) (words : List Word) : k.result? words = none := by
  cases k <;> first | rfl | cases h

theorem Kind.result?_of_isBlock (h : k.isBlock) (words : List Word) : k.result? words = none := by
  cases k <;> first | rfl | cases h

theorem Kind.result?_of_constant? (h : k.constant? = some w) (words : List Word) :
    k.result? words = some w := by
  cases k <;> first | exact h | cases h

theorem Kind.argumentCount_of_constant? (h : k.constant? = some w) : k.argumentCount = 0 := by
  cases k <;> first | rfl | cases h

theorem Kind.isPhi_eq_false_of_constant? (h : k.constant? = some w) : k.isPhi = false := by
  cases k <;> first | rfl | cases h

theorem Kind.result?_swap (h : k.isCommutative) (x y : Word) :
    k.result? [x, y] = k.result? [y, x] := by
  cases k with
  | binary op => exact BinOp.eval_comm h x y
  | compare op => exact congrArg (fun b => some (Word.ofBool b)) (CmpOp.eval_comm h x y)
  | _ => cases h

namespace Path

variable {path : Path} {edge : NodeId × Nat} {steps : Nat}

theorem upTo_length (path : Path) : path.upTo path.length = path := by
  rw [upTo, Nat.sub_self]
  rfl

theorem upTo_cons (h : steps ≤ path.length) : upTo (edge :: path) steps = path.upTo steps := by
  unfold upTo
  rw [length_cons, Nat.succ_sub h, drop_succ_cons]

theorem upTo_suffix (path : Path) (steps : Nat) : path.upTo steps <:+ path := drop_suffix _ _

end Path

/-- Where everything has one value at most, the values of a list are those of an
assignment. -/
theorem exists_assignment {α β : Type} [Inhabited β] {R : α → β → Prop}
    (hu : ∀ a x y, R a x → R a y → x = y) {as : List α} {xs : List β}
    (h : List.Forall₂ R as xs) : ∃ V : α → β, as.map V = xs ∧ ∀ a ∈ as, R a (V a) := by
  classical
  let V : α → β := fun a => if h : ∃ x, R a x then h.choose else default
  have hV : ∀ a x, R a x → V a = x := fun a x hx => by
    have hex : ∃ x, R a x := ⟨x, hx⟩
    rw [show V a = hex.choose from dif_pos hex]
    exact hu a _ _ hex.choose_spec hx
  refine ⟨V, ?_, fun a ha => ?_⟩
  · rw [← List.forall₂_eq_eq_eq, List.forall₂_map_left_iff]
    exact h.imp hV
  · obtain ⟨i, hi, rfl⟩ := mem_iff_getElem.1 ha
    have hx := h.get hi (h.length_eq ▸ hi)
    exact (hV _ _ hx).symm ▸ hx

namespace Graph

variable {g g' : Graph} {guard guard' : NodeId → List Word → Prop} {path : Path} {n : NodeId}
  {w w' : Word}

/-- **A node has one word at most.** -/
theorem Gives.unique (h : g.Gives guard path n w) (h' : g.Gives guard path n w') : w = w' := by
  induction h generalizing w' with
  | pass hne h ih =>
    cases h' with
    | pass _ h' => exact ih h'
    | merge hb | here hb => exact absurd hb hne
  | merge hb hp ha h ih =>
    cases h' with
    | pass hne => exact absurd hb hne
    | merge _ _ ha' h' =>
      cases ha.symm.trans ha'
      exact ih h'
    | here _ _ _ hw => cases (result?_of_isPhi hp _).symm.trans hw
  | @here path n V w hb hargs hguard hw ih =>
    cases h' with
    | pass hne => exact absurd hb hne
    | merge _ hp => cases (result?_of_isPhi hp _).symm.trans hw
    | here _ hargs' _ hw' =>
      rw [map_congr_left fun a ha => ih a ha (hargs' a ha)] at hw
      exact some.inj (hw.symm.trans hw')

/-- A node is computed from words of its arguments. -/
theorem gives_of_forall₂ (words : List Word) (hb : g.blockOf n = Path.last path)
    (ha : List.Forall₂ (g.Gives guard path) (g.arguments n) words) (hg : guard n words)
    (hw : (g.kind n).result? words = some w) : g.Gives guard path n w := by
  obtain ⟨V, hm, hV⟩ := exists_assignment (fun _ _ _ hx hy => hx.unique hy) ha
  exact .here (V := V) hb hV (hm ▸ hg) (hm ▸ hw)

/-- **The word of a node in the block where it is computed.** -/
theorem Gives.exists_words (h : g.Gives guard path n w) (hb : g.blockOf n = Path.last path)
    (hphi : (g.kind n).isPhi = false) :
    ∃ words, List.Forall₂ (g.Gives guard path) (g.arguments n) words ∧ guard n words ∧
      (g.kind n).result? words = some w := by
  cases h with
  | pass hne => exact absurd hb hne
  | merge _ hphi' => cases hphi.symm.trans hphi'
  | @here _ _ V _ _ ha hg hw =>
    exact ⟨_, List.forall₂_map_right_iff.2 (List.forall₂_same.2 ha), hg, hw⟩

theorem le_length_of_chase (h : g.chase path n = some origin) : origin.2 ≤ path.length := by
  induction path generalizing n with
  | nil =>
    unfold chase at h
    split at h
    · cases h
    · cases h
      exact le_rfl
  | cons edge path ih =>
    unfold chase at h
    split at h
    · exact Nat.le_succ_of_le (ih h)
    split at h
    · obtain ⟨a, -, ha⟩ := bind_eq_some_iff.1 h
      exact Nat.le_succ_of_le (ih ha)
    · cases h
      exact le_rfl

/-- **Where a node comes from, it has its word.** -/
theorem gives_of_chase (h : g.chase path n = some origin)
    (hw : g.Gives guard (path.upTo origin.2) origin.1 w) : g.Gives guard path n w := by
  induction path generalizing n with
  | nil =>
    unfold chase at h
    split at h
    · cases h
    · cases h
      exact hw
  | cons edge path ih =>
    unfold chase at h
    split at h
    · rw [Path.upTo_cons (le_length_of_chase h)] at hw
      exact .pass ‹_› (ih h hw)
    rename_i hb
    split at h
    · obtain ⟨a, ha, hc⟩ := bind_eq_some_iff.1 h
      rw [Path.upTo_cons (le_length_of_chase hc)] at hw
      exact .merge (not_not.1 hb) ‹_› ha (ih hc hw)
    · cases h
      exact Path.upTo_length (edge :: path) ▸ hw

/-- **Nodes that are there keep their words** when others come in addition. -/
theorem Gives.mono (h : g.Gives guard path n w) (hn : n < g.size)
    (hc : ∀ n a, a ∈ g.operands n → a < g.size)
    (hsame : ∀ n < g.size, g'.kind n = g.kind n ∧ g'.blockOf n = g.blockOf n ∧
      g'.operands n = g.operands n)
    (hguard : ∀ n < g.size, ∀ words, guard n words → guard' n words) : g'.Gives guard' path n w := by
  induction h with
  | pass hne h ih => exact .pass ((hsame _ hn).2.1 ▸ hne) (ih hn)
  | @merge edge path n a w hblock hphi ha h ih =>
    obtain ⟨hk, hb, ho⟩ := hsame n hn
    exact .merge (hb ▸ hblock) (hk ▸ hphi) (ho ▸ ha)
      (ih (hc n a (mem_of_getElem? ha)))
  | @here path n V w hblock hargs hg hw ih =>
    obtain ⟨hk, hb, ho⟩ := hsame n hn
    have hs : g'.arguments n = g.arguments n := by rw [arguments, hk, ho]; rfl
    refine .here (V := V) (hb ▸ hblock) (fun a ha => ?_) ?_ ?_
    · rw [hs] at ha
      exact ih a ha (hc n a (mem_of_mem_take ha))
    · rw [hs]
      exact hguard n hn _ hg
    · rw [hs, hk]
      exact hw

theorem Gives.weaken (h : g.Gives guard path n w)
    (hguard : ∀ n words, guard n words → guard' n words) : g.Gives guard' path n w := by
  induction h with
  | pass hne _ ih => exact .pass hne ih
  | merge hb hphi ha _ ih => exact .merge hb hphi ha ih
  | here hb _ hg hw ih => exact .here hb ih (hguard _ _ hg) hw

/-- **A constant has its word everywhere**, since no path comes back to the start
block. -/
theorem gives_of_constant? {preds : NodeId → List NodeId} (hp : IsPath preds path)
    (hentry : preds startBlock = []) (hb : g.blockOf n = startBlock)
    (hc : (g.kind n).constant? = some w) (hg : guard n []) : g.Gives guard path n w := by
  induction hp with
  | nil =>
    have hargs : g.arguments n = [] := by
      rw [arguments, argumentCount_of_constant? hc]
      rfl
    refine .here (V := fun _ => 0) hb (fun a ha => ?_) ?_ ?_
    · exact absurd (hargs ▸ ha) not_mem_nil
    · rw [hargs]
      exact hg
    · exact result?_of_constant? hc _
  | @cons path block index hp hedge ih =>
    refine .pass (fun he => ?_) ih
    rw [← show startBlock = block from hb.symm.trans he, hentry] at hedge
    cases hedge

theorem Gives.eq_of_constant? {v : Word} (h : g.Gives guard path n w)
    (hc : (g.kind n).constant? = some v) : w = v := by
  induction h with
  | pass _ _ ih => exact ih hc
  | merge _ hphi =>
    cases (isPhi_eq_false_of_constant? hc).symm.trans hphi
  | here _ _ _ hw => exact some.inj (hw.symm.trans (result?_of_constant? hc _))

theorem fst_of_chase (h : g.chase path n = some origin) (hp : (g.kind n).isPhi = false) :
    origin.1 = n := by
  induction path with
  | nil =>
    unfold chase at h
    rw [hp] at h
    exact congrArg Prod.fst (some.inj h).symm
  | cons edge path ih =>
    unfold chase at h
    split at h
    · exact ih h
    · rw [hp] at h
      exact congrArg Prod.fst (some.inj h).symm

end Graph

/-! ## Origins -/

namespace Blueprint

variable {F : Blueprint} {path : Path} {n : NodeId}

theorem snd_meaning_le (F : Blueprint) (path : Path) :
    (∀ n, (F.origin path n).2 ≤ path.length) ∧ ∀ slot, (F.reaching path slot).2 ≤ path.length := by
  have ht : ∀ {block : NodeId} {steps bound : Nat} {start}, steps ≤ bound →
      (∀ n, (start.1 n : Origin).2 ≤ bound) → (∀ slot, (start.2 slot : Origin).2 ≤ bound) →
      (∀ n, ((F.through block steps start).1 n).2 ≤ bound) ∧
        ∀ slot, ((F.through block steps start).2 slot).2 ≤ bound := by
    intro block steps bound start hsteps hn hs
    have hh : ∀ n, ((F.through block steps start).1 n).2 ≤ bound := fun n => by
      unfold through
      dsimp only
      split
      · cases F.slot n with
        | none => exact hsteps
        | some slot => exact hs slot
      · exact hn n
    refine ⟨hh, fun slot => ?_⟩
    show ((F.written block slot).elim (start.2 slot) _).2 ≤ bound
    cases F.written block slot with
    | none => exact hs slot
    | some n => exact hh n
  induction path with
  | nil => exact ht le_rfl (fun _ => le_rfl) fun _ => le_rfl
  | cons edge path ih =>
    exact ht le_rfl (fun n => Nat.le_succ_of_le (ih.1 n)) fun slot =>
      Nat.le_succ_of_le (ih.2 slot)

theorem origin_of_startBlock (hp : IsPath F.preds path) (hentry : F.preds Graph.startBlock = [])
    (hb : F.block n = Graph.startBlock) (hs : F.slot n = none) :
    F.origin path n = (n, 0) := by
  induction hp with
  | nil => exact origin_self hb hs
  | @cons path block index hp hedge ih =>
    have hne : F.block n ≠ block := fun he => by
      rw [← hb.symm.trans he, hentry] at hedge
      cases hedge
    rw [origin_cons hne, ih]

end Blueprint

/-! ## Runs -/

/-- **A division traps** at the end of a path. -/
def Graph.TrapsAt (g : Graph) (guard : NodeId → List Word → Prop) (path : Path) (d : NodeId) : Prop :=
  ∃ op a b x y, g.kind d = .binary op ∧ g.blockOf d = Path.last path ∧ g.arguments d = [a, b] ∧
    g.Gives guard path a x ∧ g.Gives guard path b y ∧ op.eval x y = none

namespace Graph

variable (g : Graph) (guard : NodeId → List Word → Prop)

/-- **No division traps** in the last block of a path. -/
def Settles (path : Path) : Prop :=
  ∀ d, (g.kind d).mayTrap = true → g.blockOf d = Path.last path → ∃ w, g.Gives guard path d w

/-- **Where a jump leads** at the end of a path. -/
inductive Turns (path : Path) (jump : NodeId) : NodeId → Prop
  | always {target : NodeId} (hkind : g.kind jump = .jump target) : Turns path jump target
  | branch {ifTrue ifFalse cond : NodeId} {w : Word} (hkind : g.kind jump = .condJump ifTrue ifFalse)
      (hops : g.operands jump = [cond]) (hw : g.Gives guard path cond w) :
      Turns path jump (if w ≠ 0 then ifTrue else ifFalse)

/-- **Control comes along a path.** -/
inductive Comes : Path → Prop
  | nil : Comes []
  | cons {path : Path} {jump block : NodeId} {index : Nat} (h : Comes path)
      (hsettles : g.Settles guard path) (hhome : g.blockOf jump = Path.last path)
      (hturns : g.Turns guard path jump block) (hedge : (g.operands block)[index]? = some jump) :
      Comes ((block, index) :: path)

/-- **How a run ends**: it returns a word, or traps. -/
inductive Ends : Option Word → Prop
  | returns {path : Path} {jump effect value : NodeId} {w : Word} (h : g.Comes guard path)
      (hsettles : g.Settles guard path) (hhome : g.blockOf jump = Path.last path)
      (hkind : g.kind jump = .ret) (hops : g.operands jump = [effect, value])
      (hw : g.Gives guard path value w) : Ends (some w)
  | traps {path : Path} {d : NodeId} (h : g.Comes guard path) (htraps : g.TrapsAt guard path d) :
      Ends none

variable {g guard}

theorem Comes.isPath (h : g.Comes guard path) : IsPath g.preds path := by
  induction h with
  | nil => exact .nil
  | @cons path jump block index _ _ hh _ he ih =>
    refine .cons ih ?_
    rw [preds, getElem?_map, he, ← hh]
    rfl

theorem Turns.mem_targets {jump block : NodeId} (h : g.Turns guard path jump block) :
    (g.kind jump).isTerminator ∧ block ∈ g.targets jump := by
  cases h with
  | always hk =>
    rw [targets, hk]
    exact ⟨rfl, .head _⟩
  | branch hk _ _ =>
    rw [targets, hk]
    refine ⟨rfl, ?_⟩
    split
    · exact .head _
    · exact .tail _ (.head _)

end Graph

end SsaCompiler
