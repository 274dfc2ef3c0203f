import Mathlib.Data.List.Basic
import Mathlib.Logic.Relation
import SsaCompiler.Builder

/-!
# Following retired merges

The builder remembers what every retired merge was replaced by, the latest
retirement first. A merge is retired for a node that is not retired itself,
so an entry never points at an earlier one, and **following the entries
ends** at a node that stands for itself. `root` says which: it goes through
the entries from the oldest to the latest and takes each one at most once.
-/

namespace SsaCompiler.Builder

open List

variable {phi value n : NodeId} {rest l : List (NodeId × NodeId)}

/-- **A list of retirements, the latest first**: each one retires a node
that was not retired before, for another such node. -/
inductive Forwards : List (NodeId × NodeId) → Prop
  | nil : Forwards []
  | cons {rest : List (NodeId × NodeId)} {phi value : NodeId} (h : Forwards rest)
      (hphi : rest.lookup phi = none) (hvalue : rest.lookup value = none)
      (hne : phi ≠ value) : Forwards ((phi, value) :: rest)

/-- What stands for a node after all retirements of a list. -/
def root : List (NodeId × NodeId) → NodeId → NodeId
  | [], n => n
  | (phi, value) :: rest, n => if root rest n = phi then value else root rest n

/-- The number of retirements that change what stands for a node. -/
def depth : List (NodeId × NodeId) → NodeId → Nat
  | [], _ => 0
  | (phi, _) :: rest, n => depth rest n + if root rest n = phi then 1 else 0

theorem depth_le_length (l : List (NodeId × NodeId)) (n : NodeId) : depth l n ≤ l.length := by
  induction l with
  | nil => exact Nat.le_refl 0
  | cons e rest ih =>
    unfold depth
    rw [length_cons]
    split <;> omega

theorem lookup_cons_eq_none :
    ((phi, value) :: rest).lookup n = none ↔ n ≠ phi ∧ rest.lookup n = none := by
  by_cases h : n = phi
  · simp
  · simp

/-- A node that was not retired stands for itself. -/
theorem root_of_lookup (h : l.lookup n = none) : root l n = n ∧ depth l n = 0 := by
  induction l with
  | nil => exact ⟨rfl, rfl⟩
  | cons e rest ih =>
    obtain ⟨hne, hr⟩ := lookup_cons_eq_none.1 h
    obtain ⟨hroot, hd⟩ := ih hr
    unfold root depth
    rw [hroot, hd, if_neg hne, if_neg hne]
    exact ⟨rfl, rfl⟩

theorem Forwards.lookup_root (h : Forwards l) (n : NodeId) : l.lookup (root l n) = none := by
  induction h with
  | nil => rfl
  | cons h hphi hv hne ih =>
    unfold root
    split
    · exact lookup_cons_eq_none.2 ⟨Ne.symm hne, hv⟩
    · exact lookup_cons_eq_none.2 ⟨‹_›, ih⟩

theorem Forwards.root_of_lookup_eq_some (h : Forwards l) {m : NodeId} (hn : l.lookup n = some m) :
    root l n = root l m ∧ depth l n = depth l m + 1 := by
  induction h with
  | nil => cases hn
  | @cons rest phi value h hphi hv hne ih =>
    by_cases he : n = phi
    · subst he
      have hm : value = m := by simpa using hn
      subst hm
      obtain ⟨hr, hd⟩ := root_of_lookup hphi
      obtain ⟨hr', hd'⟩ := root_of_lookup hv
      unfold root depth
      rw [hr, hd, hr', hd', if_pos rfl, if_pos rfl, if_neg (Ne.symm hne), if_neg (Ne.symm hne)]
      exact ⟨rfl, rfl⟩
    · rw [lookup_cons, beq_false_of_ne he] at hn
      obtain ⟨hr, hd⟩ := ih hn
      unfold root depth
      rw [hr]
      exact ⟨rfl, by omega⟩

theorem Forwards.follow_eq_root (h : Forwards l) (steps : Nat) (hn : depth l n ≤ steps) :
    follow l steps n = root l n := by
  induction steps generalizing n with
  | zero =>
    cases hl : l.lookup n with
    | none => exact (root_of_lookup hl).1.symm
    | some m => exact absurd (h.root_of_lookup_eq_some hl).2 (by omega)
  | succ steps ih =>
    unfold follow
    cases hl : l.lookup n with
    | none => exact (root_of_lookup hl).1.symm
    | some m =>
      obtain ⟨hr, hdepth⟩ := h.root_of_lookup_eq_some hl
      exact (ih (by omega)).trans hr.symm

theorem Forwards.lookup_eq_some (h : Forwards l) {e : NodeId × NodeId} (he : e ∈ l) :
    l.lookup e.1 = some e.2 := by
  induction h with
  | nil => cases he
  | @cons rest phi value h hp hvalue hne ih =>
    rcases mem_cons.1 he with rfl | he
    · exact lookup_cons_self
    · have hne' : e.1 ≠ phi := fun heq => by
        rw [← heq, ih he] at hp
        cases hp
      rw [lookup_cons, beq_false_of_ne hne']
      exact ih he

/-- The builder finds what stands for a node. -/
theorem resolve_eq_root {b : Builder} (h : Forwards b.forwarded) (n : NodeId) :
    b.resolve n = root b.forwarded n :=
  h.follow_eq_root _ (depth_le_length _ n)

theorem Forwards.wellFounded (h : Forwards l) : WellFounded fun m n => l.lookup n = some m :=
  Subrelation.wf (fun hn => Nat.lt_of_lt_of_eq (Nat.lt_succ_self _)
    (h.root_of_lookup_eq_some hn).2.symm) (measure (depth l)).wf

theorem Forwards.reaches_root (h : Forwards l) (n : NodeId) :
    Relation.ReflTransGen (fun n m => l.lookup n = some m) n (root l n) := by
  induction n using h.wellFounded.induction with
  | _ n ih =>
    cases hn : l.lookup n with
    | none => rw [(root_of_lookup hn).1]
    | some m =>
      rw [(h.root_of_lookup_eq_some hn).1]
      exact .head hn (ih m hn)

theorem root_lt {size : Nat} (hl : ∀ e ∈ l, e.2 < size) (hn : n < size) : root l n < size := by
  induction l with
  | nil => exact hn
  | cons e rest ih =>
    unfold root
    split
    · exact hl e (.head _)
    · exact ih fun e he => hl e (.tail _ he)

theorem root_append (new old : List (NodeId × NodeId)) (n : NodeId) :
    root (new ++ old) n = root new (root old n) := by
  induction new with
  | nil => rfl
  | cons e new ih =>
    show (if root (new ++ old) n = e.1 then e.2 else root (new ++ old) n) = _
    rw [ih]
    rfl

theorem Forwards.of_suffix {l' : List (NodeId × NodeId)} (h : Forwards l') (hs : l <:+ l') :
    Forwards l := by
  obtain ⟨new, rfl⟩ := hs
  induction new with
  | nil => exact h
  | cons e new ih =>
    cases h with
    | cons h => exact ih h

/-- A retired merge and its value are stood for by the same node from then
on. -/
theorem root_eq_of_suffix (h : Forwards l) (hs : (phi, value) :: rest <:+ l) :
    root l phi = root l value := by
  have hmid := h.of_suffix hs
  obtain ⟨new, rfl⟩ := hs
  rw [root_append, root_append]
  have hl : ((phi, value) :: rest).lookup phi = some value := by simp
  rw [(hmid.root_of_lookup_eq_some hl).1]

end SsaCompiler.Builder
