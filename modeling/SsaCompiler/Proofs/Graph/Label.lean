import SsaCompiler.Proofs.Emission.Layout
import SsaCompiler.Proofs.Graph.Edges

/-!
# The texts of local labels

The label of a block is the name of its function and the role of the block, with
a number from the second block of the role on. The labels of a comparison are
the name of the function, the number of the comparison and one of two words. The
parts are joined by underscores, and the name of a function may hold underscores
itself. **So a label is read from its end**: what follows the last underscore is
a role, a number or one of the two words, and these are never the same
(`LocalName.text_inj`).
-/

namespace SsaCompiler

open List String

variable {n k : Nat} {role : String}

/-- **A local label of a function**: that of a block, with the number of earlier
blocks of its role, or one of the two labels of a comparison. -/
inductive LocalName where
  | block (role : String) (earlier : Nat)
  | yes (n : NodeId)
  | done (n : NodeId)
deriving DecidableEq

/-- **The roles of the blocks of a function**, apart from the last one. -/
def bodyRoles : List String :=
  ["start", "then", "else", "merge", "header", "body", "exit"]

namespace LocalName

/-- **The text of a local label** of a function. -/
def text (function : String) : LocalName → String
  | block role earlier =>
    if earlier = 0 then s!"{function}_{role}" else s!"{function}_{role}_{earlier}"
  | yes n => s!"{function}_cmp{n}_true"
  | done n => s!"{function}_cmp{n}_end"

/-- What stands before the last underscore. -/
def front (function : String) : LocalName → List Char
  | block role earlier =>
    if earlier = 0 then function.toList else function.toList ++ '_' :: role.toList
  | yes n | done n => function.toList ++ '_' :: ("cmp".toList ++ (toString n).toList)

/-- What follows the last underscore. -/
def back : LocalName → List Char
  | block role earlier => if earlier = 0 then role.toList else (toString earlier).toList
  | yes _ => "true".toList
  | done _ => "end".toList

/-- The role of a block is one of those in a body. -/
def Known : LocalName → Prop
  | block role _ => role ∈ bodyRoles
  | _ => True

/-! ## Parts without underscores -/

/-- **The part after the last underscore is unique.** -/
theorem append_underscore_inj {x x' y y' : List Char} (hy : '_' ∉ y) (hy' : '_' ∉ y')
    (h : x ++ '_' :: y = x' ++ '_' :: y') : x = x' ∧ y = y' := by
  rcases append_eq_append_iff.1 h with ⟨z, rfl, hz⟩ | ⟨z, rfl, hz⟩
  · rcases cons_eq_append_iff.1 hz with ⟨rfl, he⟩ | ⟨w, rfl, rfl⟩
    · exact ⟨(append_nil x).symm, (List.cons.inj he).2.symm⟩
    · exact absurd (mem_append_right w (.head _)) hy
  · rcases cons_eq_append_iff.1 hz with ⟨rfl, he⟩ | ⟨w, rfl, rfl⟩
    · exact ⟨append_nil x', (List.cons.inj he).2⟩
    · exact absurd (mem_append_right w (.head _)) hy'

theorem toList_toString (n : Nat) : (toString n).toList = Nat.toDigits 10 n := by
  show n.repr.toList = _
  rw [Nat.repr_eq_ofList_toDigits, toList_ofList]

theorem isDigit_of_mem_toString {c : Char} (h : c ∈ (toString n).toList) : c.isDigit :=
  Nat.isDigit_of_mem_toDigits (by decide) (by decide) (toList_toString n ▸ h)

theorem underscore_not_mem_toString (n : Nat) : '_' ∉ (toString n).toList :=
  fun h => absurd (isDigit_of_mem_toString h) (by decide)

/-- A role has no underscores, is no number and none of the two words of a
comparison. -/
theorem of_mem_bodyRoles (h : role ∈ bodyRoles) :
    '_' ∉ role.toList ∧ role.toList.all Char.isDigit = false ∧ role.toList ≠ "true".toList ∧
      role.toList ≠ "end".toList := by
  simp only [bodyRoles, mem_cons, not_mem_nil, or_false] at h
  rcases h with rfl | rfl | rfl | rfl | rfl | rfl | rfl <;> decide

variable {f f' : String} {l l' : LocalName}

theorem toList_text (f : String) (l : LocalName) :
    (l.text f).toList = l.front f ++ '_' :: l.back := by
  cases l with
  | block role earlier =>
    rw [text, front, back]
    split
    · show ((f ++ "_") ++ role).toList = _
      simp
    · show ((((f ++ "_") ++ role) ++ "_") ++ toString earlier).toList = _
      simp
  | yes n =>
    show ((((f ++ "_cmp") ++ toString n) ++ "_true")).toList = _
    simp [front, back]
  | done n =>
    show ((((f ++ "_cmp") ++ toString n) ++ "_end")).toList = _
    simp [front, back]

theorem underscore_not_mem_back (h : l.Known) : '_' ∉ l.back := by
  cases l with
  | block role earlier =>
    rw [back]
    split
    · exact (of_mem_bodyRoles h).1
    · exact underscore_not_mem_toString earlier
  | yes n => exact (by decide : '_' ∉ "true".toList)
  | done n => exact (by decide : '_' ∉ "end".toList)

/-! ## Labels with the same text -/

theorem toString_ne_of_not_isDigit {l : List Char} (h : l.all Char.isDigit = false) :
    (toString n).toList ≠ l := fun he => by
  have hall : l.all Char.isDigit = true :=
    all_eq_true.2 fun c hc => isDigit_of_mem_toString (he ▸ hc)
  cases hall.symm.trans h

theorem compare_front_inj {n' : Nat} (h : f.toList ++ '_' :: ("cmp".toList ++ (toString n).toList)
      = f'.toList ++ '_' :: ("cmp".toList ++ (toString n').toList)) : f = f' ∧ n = n' := by
  have hno : ∀ n : Nat, '_' ∉ "cmp".toList ++ (toString n).toList := fun n hm => by
    rcases mem_append.1 hm with hm | hm
    · exact absurd hm (by decide)
    · exact underscore_not_mem_toString n hm
  obtain ⟨hf, hn⟩ := append_underscore_inj (hno n) (hno n') h
  exact ⟨toList_inj.1 hf, toString_injective (toList_inj.1 (append_cancel_left hn))⟩

theorem block_inj {role' : String} {k' : Nat} (hrole : role ∈ bodyRoles)
    (hrole' : role' ∈ bodyRoles) (hfront : (block role k).front f = (block role' k').front f')
    (hb : (block role k).back = (block role' k').back) :
    f = f' ∧ block role k = block role' k' := by
  obtain ⟨hno, hl, -, -⟩ := of_mem_bodyRoles hrole
  obtain ⟨hno', hl', -, -⟩ := of_mem_bodyRoles hrole'
  rw [front, front] at hfront
  rw [back, back] at hb
  by_cases hk : k = 0 <;> by_cases hk' : k' = 0
  · rw [if_pos hk, if_pos hk'] at hfront hb
    exact ⟨toList_inj.1 hfront, by rw [toList_inj.1 hb, hk, hk']⟩
  · rw [if_pos hk, if_neg hk'] at hb
    exact absurd hb.symm (toString_ne_of_not_isDigit hl)
  · rw [if_neg hk, if_pos hk'] at hb
    exact absurd hb (toString_ne_of_not_isDigit hl')
  · rw [if_neg hk, if_neg hk'] at hfront hb
    obtain ⟨hf, hr⟩ := append_underscore_inj hno hno' hfront
    exact ⟨toList_inj.1 hf, by
      rw [toList_inj.1 hr, toString_injective (toList_inj.1 hb)]⟩

theorem back_block_ne (hr : role ∈ bodyRoles) :
    (block role k).back ≠ "true".toList ∧ (block role k).back ≠ "end".toList := by
  rw [back]
  split
  · exact (of_mem_bodyRoles hr).2.2
  · exact ⟨toString_ne_of_not_isDigit (by decide), toString_ne_of_not_isDigit (by decide)⟩

/-- **The text of a label tells the function and the label.** -/
theorem text_inj (h : l.Known) (h' : l'.Known) (he : l.text f = l'.text f') :
    f = f' ∧ l = l' := by
  have he := congrArg String.toList he
  rw [toList_text, toList_text] at he
  obtain ⟨hf, hb⟩ :=
    append_underscore_inj (underscore_not_mem_back h) (underscore_not_mem_back h') he
  cases l with
  | block role k =>
    cases l' with
    | block role' k' => exact block_inj h h' hf hb
    | yes n' => exact absurd hb (back_block_ne h).1
    | done n' => exact absurd hb (back_block_ne h).2
  | yes n =>
    cases l' with
    | block role' k' => exact absurd hb.symm (back_block_ne h').1
    | yes n' => exact (compare_front_inj hf).imp_right (congrArg yes)
    | done n' => exact absurd hb (by decide : "true".toList ≠ "end".toList)
  | done n =>
    cases l' with
    | block role' k' => exact absurd hb.symm (back_block_ne h').2
    | yes n' => exact absurd hb (by decide : "end".toList ≠ "true".toList)
    | done n' => exact (compare_front_inj hf).imp_right (congrArg done)

end LocalName

/-! ## Graphs whose blocks are labelled by role -/

/-- **The blocks of a graph have labels of their own**, given by their roles. -/
structure Graph.Labelled (g : Graph) (names : NodeId → LocalName) : Prop where
  kind : ∀ b, (g.kind b).isBlock = true → g.kind b = .block ((names b).text g.name)
  inj : ∀ b b', (g.kind b).isBlock = true → (g.kind b').isBlock = true → names b = names b' → b = b'
  /-- The number in a label is below that of the next block of the role. -/
  counted : ∀ b, (g.kind b).isBlock = true →
    ∃ role earlier, names b = .block role earlier ∧ earlier < g.roles.count role
  known : ∀ b, (g.kind b).isBlock = true → b ≠ Graph.endBlock → (names b).Known

namespace Graph.Labelled

variable {g g' : Graph} {names : NodeId → LocalName}

/-- Labels are kept where no blocks are made. -/
theorem mono (h : g.Labelled names) (hn : g'.name = g.name) (hr : g'.roles = g.roles)
    (hk : ∀ n, (g'.kind n).isBlock → g'.kind n = g.kind n) : g'.Labelled names := by
  have hblock : ∀ {b}, (g'.kind b).isBlock = true → (g.kind b).isBlock = true :=
    fun {b} hb => hk b hb ▸ hb
  refine ⟨fun b hb => ?_, fun b b' hb hb' => h.inj b b' (hblock hb) (hblock hb'), fun b hb => ?_,
    fun b hb => h.known b (hblock hb)⟩
  · rw [hk b hb, hn]
    exact h.kind b (hblock hb)
  · rw [hr]
    exact h.counted b (hblock hb)

theorem kind_newBlock_self (g : Graph) (role : String) : (g.newBlock role).2.kind g.size
      = .block ((LocalName.block role (g.roles.count role)).text g.name) := by
  have hn : (g.newBlock role).2.node g.size = _ :=
    (Graph.node_push g _ g.size).trans (if_pos rfl)
  unfold Graph.kind
  rw [hn]
  rfl

/-- **A new block gets a label that no other block has.** -/
theorem newBlock (h : g.Labelled names) (hrole : role ∈ bodyRoles) : (g.newBlock role).2.Labelled
      (Function.update names g.size (.block role (g.roles.count role))) := by
  have ho : ∀ {b}, ((g.newBlock role).2.kind b).isBlock = true → b ≠ g.size →
      (g.kind b).isBlock = true := fun {b} hb hne =>
    (congrArg Kind.isBlock (Graph.kind_newBlock_of_ne g role hne)).symm.trans hb
  -- The label of an old block has a number below that of the new one.
  have hf : ∀ {b}, (g.kind b).isBlock = true →
      names b ≠ .block role (g.roles.count role) := fun {b} hb he => by
    obtain ⟨role', earlier, hn, hlt⟩ := h.counted b hb
    cases hn.symm.trans he
    exact Nat.lt_irrefl _ hlt
  refine ⟨fun b hb => ?_, fun b b' hb hb' he => ?_, fun b hb => ?_, fun b hb hend => ?_⟩
  · by_cases hne : b = g.size
    · subst hne
      rw [Function.update_self]
      exact kind_newBlock_self g role
    · rw [Function.update_of_ne hne, Graph.kind_newBlock_of_ne g role hne]
      exact h.kind b (ho hb hne)
  · by_cases hne : b = g.size <;> by_cases hne' : b' = g.size
    · exact hne.trans hne'.symm
    · rw [hne, Function.update_self, Function.update_of_ne hne'] at he
      exact absurd he.symm (hf (ho hb' hne'))
    · rw [hne', Function.update_self, Function.update_of_ne hne] at he
      exact absurd he (hf (ho hb hne))
    · rw [Function.update_of_ne hne, Function.update_of_ne hne'] at he
      exact h.inj b b' (ho hb hne) (ho hb' hne') he
  · have hr : (g.newBlock role).2.roles = role :: g.roles := rfl
    rw [hr]
    by_cases hne : b = g.size
    · subst hne
      rw [Function.update_self]
      exact ⟨role, _, rfl, by rw [count_cons_self]; exact Nat.lt_succ_self _⟩
    · rw [Function.update_of_ne hne]
      obtain ⟨role', earlier, hn, hlt⟩ := h.counted b (ho hb hne)
      exact ⟨role', earlier, hn, hlt.trans_le count_le_count_cons⟩
  · by_cases hne : b = g.size
    · subst hne
      rw [Function.update_self]
      exact hrole
    · rw [Function.update_of_ne hne]
      exact h.known b (ho hb hne) hend

end Graph.Labelled

end SsaCompiler
