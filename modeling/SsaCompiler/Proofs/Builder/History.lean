import SsaCompiler.Proofs.Builder.Read

/-!
# The history of a draft

While a graph is built, nodes are offered to the value table and nodes are
detached. The **history** of a part of the construction lists both, in order,
and every offer with the draft to which it was made. So it can be asked of
every hit *at that moment* whether the node that was found computes what was
asked for (`Offer.Current`), and whether it had been detached before
(`History.Sound`).

A key of the table is never changed. It tells the operands of its node as long
as none of them was replaced, so a hit is current if the operands of the new
node were not; and what is retired is a merge, which is not in the table. This
module says what reads and seals offer and detach, and that all their hits are
current (`recounts_read`, `tells_sealBlock`): all they ever offer is an undefined
value.
-/

namespace SsaCompiler

open List Option Graph

variable {i : Nat} {o : Offer} {asked : Kind → Prop} {d : Draft}

/-! ## Offers -/

/-- **A node is offered to a draft**: it is made there, and then looked up. -/
structure Offer where
  draft : Draft
  kind : Kind
  block : NodeId
  operands : List NodeId

namespace Offer

/-- The node that is made. -/
def candidate (o : Offer) : NodeId :=
  o.draft.graph.size

/-- The graph at the moment of the lookup. -/
def graph (o : Offer) : Graph :=
  (o.draft.graph.addNode o.kind o.block o.operands).2

/-- The answer to the offer, and the draft afterwards. -/
def answer (o : Offer) : NodeId × Draft :=
  o.draft.add o.kind o.block o.operands

/-- **The earlier node that is found**, if the offer is a hit. -/
def found? (o : Offer) : Option NodeId :=
  if o.kind.isShareable then o.draft.known.lookup (.of o.kind o.block o.operands) else none

/-- **A hit is current**: the node that is found computes at that moment what the
candidate does, and the candidate is left without a trace in the graph. -/
structure Current (o : Offer) (n : NodeId) : Prop where
  answer : o.answer.1 = n
  older : n < o.candidate
  kind : o.graph.kind n = o.graph.kind o.candidate
  block : o.graph.blockOf n = o.graph.blockOf o.candidate
  perm : (o.graph.operands n).Perm (o.graph.operands o.candidate)
  operands : (o.graph.kind o.candidate).isCommutative = false →
    o.graph.operands n = o.graph.operands o.candidate
  bare : o.answer.2.graph.operands o.candidate = []
  unused : o.answer.2.graph.userEdges o.candidate = []
  uses : ∀ m, o.candidate ∉ o.answer.2.graph.userEdges m

variable {o : Offer} {n : NodeId}

theorem kind_candidate (o : Offer) : o.graph.kind o.candidate = o.kind :=
  (kind_addNode o.draft.graph o.kind o.block o.operands _).trans (if_pos rfl)

theorem valueKey_candidate (o : Offer) :
    o.graph.valueKey o.candidate = .of o.kind o.block o.operands :=
  valueKey_addNode o.draft o.kind o.block o.operands

theorem answer_eq (o : Offer) :
    o.answer = Draft.offer { o.draft with graph := o.graph } o.candidate :=
  rfl

theorem answer_of_found (h : o.found? = some n) :
    o.answer.1 = n ∧ o.answer.2.graph = o.graph.detach o.candidate ∧
      o.answer.2.known = o.draft.known ∧
      o.answer.2.log = o.draft.log.push (.valueReused o.candidate n) := by
  have hk := o.kind_candidate
  have hkey := o.valueKey_candidate
  rw [answer_eq]
  unfold found? Draft.known at h
  split at h
  · rename_i hs
    unfold Draft.offer Draft.known
    rw [hk, hkey]
    generalize o.draft.values = values at h ⊢
    cases values with
    | none => cases h
    | some table =>
      have h : table.known.lookup (.of o.kind o.block o.operands) = some n := h
      dsimp only
      rw [if_pos hs, h]
      exact ⟨rfl, rfl, rfl, rfl⟩
  · cases h

theorem answer_of_not_found (h : o.found? = none) :
    o.answer.2.graph = o.graph ∧ o.answer.2.log = o.draft.log ∧
      ∀ e ∈ o.answer.2.known, e ∈ o.draft.known ∨ e.2 = o.candidate := by
  have hk := o.kind_candidate
  have hkey := o.valueKey_candidate
  rw [answer_eq]
  unfold found? Draft.known at h
  unfold Draft.offer Draft.known
  dsimp only
  rw [hk, hkey]
  generalize o.draft.values = values at h ⊢
  cases values with
  | none => exact ⟨rfl, rfl, fun e he => .inl he⟩
  | some table =>
    dsimp only
    split at h
    · rename_i hs
      have h : table.known.lookup (.of o.kind o.block o.operands) = none := h
      rw [if_pos hs, h]
      refine ⟨rfl, rfl, fun e he => ?_⟩
      rcases mem_cons.1 he with rfl | he
      · exact .inr rfl
      · exact .inl he
    · rename_i hs
      rw [if_neg hs]
      exact ⟨rfl, rfl, fun e he => .inl he⟩

theorem valueKey_of_lt (hn : n < o.candidate) : o.graph.valueKey n = o.draft.graph.valueKey n := by
  have hne : n ≠ o.draft.graph.size := hn.ne
  unfold Graph.valueKey graph
  rw [kind_addNode, blockOf_addNode, operands_addNode, if_neg hne, if_neg hne, if_neg hne]

/-- **A hit is current** if the node that is found still has the key under which it
is known. -/
theorem current_of_valueKey (h : o.found? = some n) (hn : n < o.candidate)
    (hc : o.draft.graph.Coherent) (hops : ∀ a ∈ o.operands, a < o.draft.graph.size)
    (hkey : o.draft.graph.valueKey n = .of o.kind o.block o.operands) : o.Current n := by
  obtain ⟨hanswer, hg, -, -⟩ := answer_of_found h
  have heq : o.graph.valueKey n = o.graph.valueKey o.candidate := by
    rw [valueKey_of_lt hn, hkey, valueKey_candidate]
  have hk : o.graph.kind n = o.graph.kind o.candidate := congrArg ValueKey.kind heq
  have hb : o.graph.blockOf n = o.graph.blockOf o.candidate := congrArg ValueKey.block heq
  have hof : ValueKey.of (o.graph.kind o.candidate) (o.graph.blockOf o.candidate)
      (o.graph.operands n) = .of (o.graph.kind o.candidate) (o.graph.blockOf o.candidate)
        (o.graph.operands o.candidate) := by
    have heq : ValueKey.of (o.graph.kind n) (o.graph.blockOf n) (o.graph.operands n) = _ := heq
    rwa [hk, hb] at heq
  have hmade : o.graph.Coherent := hc.addNode o.kind o.block hops
  have hbare : o.answer.2.graph.operands o.candidate = [] := by
    rw [hg, operands_detach, if_pos rfl]
  have ha : o.answer.2.graph.Coherent := hg ▸ hmade.detach o.candidate
  -- All operands are older than the candidate.
  have hold : ∀ m, o.candidate ∉ o.answer.2.graph.operands m := fun m hm => by
    rw [hg, operands_detach] at hm
    split at hm
    · cases hm
    · rename_i hne
      have hne : m ≠ o.draft.graph.size := hne
      unfold graph at hm
      rw [operands_addNode, if_neg hne] at hm
      exact Nat.lt_irrefl _ (hc.closed m _ hm)
  refine ⟨hanswer, hn, hk, hb, ValueKey.perm_of_of_eq hof, fun hcomm => ?_, hbare, ?_,
    fun m hm => ?_⟩
  · have ho := congrArg ValueKey.operands hof
    unfold ValueKey.of at ho
    simpa only [hcomm, Bool.false_eq_true, if_false] using ho
  · refine eq_nil_iff_forall_not_mem.2 fun m hm => hold m ?_
    rw [← count_pos_iff, ← ha.agree, count_pos_iff]
    exact hm
  · rw [← count_pos_iff, ha.agree, hbare] at hm
    exact absurd hm (Nat.lt_irrefl 0)

end Offer

/-! ## Histories -/

/-- **What is recorded**: an offer, or that a node was detached. -/
inductive Act where
  | offer (o : Offer)
  | detach (n : NodeId)

/-- The node that is detached: the candidate, where an earlier node is found. -/
def Act.detached? : Act → Option NodeId
  | offer o => o.found?.map fun _ => o.candidate
  | detach n => some n

/-- The candidate and the node that is found in its place. -/
def Act.reuse? : Act → Option (NodeId × NodeId)
  | offer o => o.found?.map fun n => (o.candidate, n)
  | detach _ => none

/-- A hit as the log reports it. -/
def Event.reuse? : Event → Option (NodeId × NodeId)
  | valueReused n earlier => some (n, earlier)
  | _ => none

/-- The hits that a log reports. -/
def Log.reuses (log : Log) : List (NodeId × NodeId) :=
  log.toList.filterMap Event.reuse?

theorem Log.reuses_push (log : Log) {e : Event} (h : e.reuse? = none) :
    Log.reuses (log.push e) = Log.reuses log := by
  simp [Log.reuses, h]

/-- **What happened to a draft**, in order. -/
abbrev History := List Act

namespace History

variable {past h h' : History}

/-- The nodes that were detached. -/
def detached (h : History) : List NodeId :=
  h.filterMap Act.detached?

/-- The hits. -/
def reuses (h : History) : List (NodeId × NodeId) :=
  h.filterMap Act.reuse?

/-- A hit is an offer. -/
theorem exists_offer {m n : NodeId} (hhit : h[i]?.bind Act.reuse? = some (m, n)) :
    ∃ o, h[i]? = some (.offer o) ∧ o.found? = some n := by
  obtain ⟨a, ha, hr⟩ := bind_eq_some_iff.1 hhit
  cases a with
  | offer o =>
    obtain ⟨_, hf, heq⟩ := map_eq_some_iff.1 hr
    obtain ⟨-, rfl⟩ := Prod.mk.inj heq
    exact ⟨o, ha, hf⟩
  | detach => cases hr

/-- **A sound history**, after what is past: an offer is made to a draft whose log
reports just the hits so far, and every hit is current and finds a node that was not
detached before. -/
def Sound : History → History → Prop
  | _, [] => True
  | past, a :: rest =>
    (∀ o, a = .offer o → Log.reuses o.draft.log = past.reuses ∧
      ∀ n, o.found? = some n → o.Current n ∧ n ∉ past.detached) ∧
    Sound (past ++ [a]) rest

theorem detached_append (h h' : History) : detached (h ++ h') = detached h ++ detached h' :=
  filterMap_append

theorem reuses_append (h h' : History) : reuses (h ++ h') = reuses h ++ reuses h' :=
  filterMap_append

theorem sound_append : Sound past (h ++ h') ↔ Sound past h ∧ Sound (past ++ h) h' := by
  induction h generalizing past with
  | nil => simp [Sound]
  | cons a rest ih =>
    rw [cons_append, Sound, Sound, ih, and_assoc, append_cons past a rest]

/-- What a sound history says of one of its offers. -/
theorem Sound.offer (hs : Sound past h) (ho : h[i]? = some (.offer o)) :
    Log.reuses o.draft.log = (past ++ h.take i).reuses ∧
      ∀ n, o.found? = some n → o.Current n ∧ n ∉ (past ++ h.take i).detached := by
  obtain ⟨hi, hget⟩ := List.getElem?_eq_some_iff.1 ho
  rw [← List.take_append_drop i h, List.drop_eq_getElem_cons hi, hget, sound_append] at hs
  exact hs.2.1 o rfl

end History

/-! ## What a history tells -/

/-- **A draft comes from what is past**: its log reports just the hits, and no node that
may be asked for was detached. -/
structure Draft.Keeps (asked : Kind → Prop) (past : History) (d : Draft) : Prop where
  log : Log.reuses d.log = past.reuses
  lt : ∀ n ∈ past.detached, n < d.graph.size
  known : ∀ e ∈ d.known, asked e.1.kind → e.2 ∉ past.detached

theorem Draft.Keeps.mono {asked' : Kind → Prop} {past : History} (h : d.Keeps asked past)
    (hasked : ∀ kind, asked' kind → asked kind) : d.Keeps asked' past :=
  ⟨h.log, h.lt, fun e he hk => h.known e he (hasked _ hk)⟩

/-- **A history tells how a draft comes from another**: it is sound after what is past, if
no node of the kinds asked for was detached there. -/
def Tells (asked : Kind → Prop) (d : Draft) (h : History) (e : Draft) : Prop :=
  ∀ past, d.Keeps asked past → History.Sound past h ∧ e.Keeps asked (past ++ h)

section

variable {asked : Kind → Prop} {d e f : Draft} {h h' : History} {n : NodeId}

theorem Tells.trans (ht : Tells asked d h e) (ht' : Tells asked e h' f) :
    Tells asked d (h ++ h') f := by
  intro past hk
  obtain ⟨hs, hk⟩ := ht past hk
  obtain ⟨hs', hk⟩ := ht' _ hk
  rw [← append_assoc]
  exact ⟨History.sound_append.2 ⟨hs, hs'⟩, hk⟩

/-- Where nothing is looked up or detached, there is nothing to tell. -/
theorem tells_nil (hknown : e.known = d.known) (hs : d.graph.size ≤ e.graph.size)
    (hlog : Log.reuses e.log = Log.reuses d.log) : Tells asked d [] e := by
  refine fun past hk => ⟨trivial, ?_⟩
  rw [append_nil]
  exact ⟨hlog.trans hk.log, fun n hn => (hk.lt n hn).trans_le hs,
    fun e he => hk.known e (hknown ▸ he)⟩

theorem Tells.refl (asked : Kind → Prop) (d : Draft) : Tells asked d [] d :=
  tells_nil rfl le_rfl rfl

theorem Tells.silently (ht : Tells asked d h e) (hs : Tells asked e [] f) :
    Tells asked d h f := by
  have hb := ht.trans hs
  rwa [append_nil] at hb

theorem tells_detach (hknown : e.known = d.known) (hs : d.graph.size ≤ e.graph.size)
    (hlog : Log.reuses e.log = Log.reuses d.log) (hn : n < d.graph.size)
    (hnot : ∀ x ∈ d.known, asked x.1.kind → x.2 ≠ n) : Tells asked d [.detach n] e := by
  refine fun past hk => ⟨⟨fun o ho => ?_, trivial⟩, ?_, fun m hm => ?_, fun x hx hasked hm => ?_⟩
  · cases ho
  · rw [hlog, hk.log, History.reuses_append]
    exact (append_nil _).symm
  · rw [History.detached_append] at hm
    refine Nat.lt_of_lt_of_le ?_ hs
    rcases mem_append.1 hm with hm | hm
    · exact hk.lt m hm
    · exact mem_singleton.1 hm ▸ hn
  · rw [hknown] at hx
    rw [History.detached_append] at hm
    rcases mem_append.1 hm with hm | hm
    · exact hk.known x hx hasked hm
    · exact hnot x hx hasked (mem_singleton.1 hm)

/-- **A node is offered.** -/
theorem tells_offer (hasked : asked o.kind) (hc : o.draft.graph.Coherent)
    (hops : ∀ a ∈ o.operands, a < o.draft.graph.size)
    (ht : ∀ x ∈ o.draft.known, x.2 < o.draft.graph.size)
    (hkey : ∀ n, (ValueKey.of o.kind o.block o.operands, n) ∈ o.draft.known →
      o.draft.graph.valueKey n = .of o.kind o.block o.operands) :
    Tells asked o.draft [.offer o] o.answer.2 := by
  have hs : o.answer.2.graph.size = o.candidate + 1 :=
    (o.draft.add_spec o.kind o.block o.operands).1.size
  intro past hk
  cases hf : o.found? with
  | none =>
    obtain ⟨-, hl, hknown⟩ := Offer.answer_of_not_found hf
    have hd : History.detached (past ++ [.offer o]) = past.detached := by
      simp [History.detached, Act.detached?, hf]
    refine ⟨⟨fun o' ho => ?_, trivial⟩, ?_, fun n hn => ?_, fun x hx hx' hmem => ?_⟩
    · cases ho
      exact ⟨hk.log, fun n hn => absurd (hf.symm.trans hn) nofun⟩
    · rw [hl, hk.log]
      simp [History.reuses, Act.reuse?, hf]
    · rw [hd] at hn
      rw [hs]
      exact Nat.lt_succ_of_lt (hk.lt n hn)
    · rw [hd] at hmem
      rcases hknown x hx with hx | hx
      · exact hk.known x hx hx' hmem
      · rw [hx] at hmem
        exact Nat.lt_irrefl _ (hk.lt _ hmem)
  | some n =>
    obtain ⟨-, -, hknown, hl⟩ := Offer.answer_of_found hf
    have hd : History.detached (past ++ [.offer o]) = past.detached ++ [o.candidate] := by
      simp [History.detached, Act.detached?, hf]
    have hmem : (ValueKey.of o.kind o.block o.operands, n) ∈ o.draft.known := by
      unfold Offer.found? at hf
      split at hf
      · exact mem_of_lookup_eq_some hf
      · cases hf
    refine ⟨⟨fun o' ho => ?_, trivial⟩, ?_, fun m hm => ?_, fun x hx hx' hm => ?_⟩
    · cases ho
      refine ⟨hk.log, fun m hm => ?_⟩
      cases hf.symm.trans hm
      exact ⟨Offer.current_of_valueKey hf (ht _ hmem) hc hops (hkey n hmem), hk.known _ hmem hasked⟩
    · have hp : Log.reuses (o.draft.log.push (.valueReused o.candidate n)) =
          Log.reuses o.draft.log ++ [(o.candidate, n)] := by
        simp [Log.reuses, Event.reuse?]
      rw [hl, hp, hk.log]
      simp [History.reuses, Act.reuse?, hf]
    · rw [hd] at hm
      rw [hs]
      rcases mem_append.1 hm with hm | hm
      · exact Nat.lt_succ_of_lt (hk.lt m hm)
      · exact mem_singleton.1 hm ▸ Nat.lt_succ_self _
    · rw [hknown] at hx
      rw [hd] at hm
      rcases mem_append.1 hm with hm | hm
      · exact hk.known x hx hx' hm
      · exact Nat.ne_of_lt (ht x hx) (mem_singleton.1 hm)

end

/-- What happens after a part of the construction that may fail. -/
def History.after {α : Type} (r : Except Fault α) (rest : α → History) : History :=
  match r with
  | .ok a => rest a
  | .error _ => []

theorem Tells.after {α : Type} {e f : Draft} {h : History} {r : Except Fault α}
    {rest : α → History} {a : α} (ht : Tells asked d h e) (hr : r = .ok a)
    (hrest : Tells asked e (rest a) f) :
    Tells asked d (h ++ History.after r rest) f := by
  rw [hr]
  exact ht.trans hrest

namespace Builder

open History

/-! ## The history of a read -/

/-- A node is offered to the draft of a builder. -/
def offers (b : Builder) (kind : Kind) (block : NodeId) (operands : List NodeId) : Act :=
  .offer ⟨b.toDraft, kind, block, operands⟩

/-- The users of a retired merge are looked at again. -/
def revisitHistory (simplify : Builder → NodeId → NodeId × Builder)
    (history : Builder → NodeId → History) : Builder → List NodeId → History
  | _, [] => []
  | b, user :: users =>
    if (b.graph.kind user).isPhi && (b.forwarded.lookup user).isNone then
      history b user ++ revisitHistory simplify history (simplify b user).2 users
    else revisitHistory simplify history b users

/-- **The history of simplifying a merge.** -/
def simplifyHistory : Nat → Builder → NodeId → History
  | 0, _, _ => []
  | bound + 1, b, phi =>
    match b.merged phi with
    | _ :: _ :: _ => []
    | [value] =>
      .detach phi :: revisitHistory (simplify bound) (simplifyHistory bound) (b.retire phi value)
        ((b.graph.users phi).filter (· ≠ phi))
    | [] =>
      b.offers .undefined Graph.startBlock [] :: .detach phi ::
        revisitHistory (simplify bound) (simplifyHistory bound)
          (b.undefined.2.retire phi b.undefined.1)
          ((b.undefined.2.graph.users phi).filter (· ≠ phi))

/-- The operands of a merge are read, and then it is simplified. -/
def fillHistory (read : Builder → Slot → NodeId → Except Fault (NodeId × Builder))
    (history : Builder → Slot → NodeId → History) (slot : Slot) (phi block : NodeId) :
    Builder → List Nat → History
  | b, [] => simplifyHistory (b.graph.size + 1) b phi
  | b, index :: rest =>
    match b.graph.predecessor? block index with
    | none => []
    | some pred => history b slot pred ++ after (read b slot pred) fun r =>
        fillHistory read history slot phi block (r.2.withGraph (r.2.graph.pushOperand phi r.1)) rest

/-- The history of completing a merge. -/
def completeHistory (read : Builder → Slot → NodeId → Except Fault (NodeId × Builder))
    (history : Builder → Slot → NodeId → History) (b : Builder) (slot : Slot) (phi : NodeId) :
    History :=
  fillHistory read history slot phi (b.graph.blockOf phi) b
    (List.range (b.graph.operands (b.graph.blockOf phi)).length)

/-- The history of a read that looks at no more than `bound` blocks in a row. -/
def readWithinHistory : Nat → Builder → Slot → NodeId → History
  | 0, _, _, _ => []
  | bound + 1, b, slot, block =>
    match b.definition? slot block with
    | some _ => []
    | none =>
      if b.isSealed block then
        match b.graph.operands block with
        | [jump] => readWithinHistory bound b slot (b.graph.blockOf jump)
        | _ => completeHistory (readWithin bound) (readWithinHistory bound)
            (b.openMerge slot block) slot b.graph.size
      else []

/-- **The history of a read.** -/
def readHistory (b : Builder) (slot : Slot) (block : NodeId) : History :=
  readWithinHistory (2 * b.graph.size + 2) b slot block

/-- Placeholders are completed one after the other. -/
def completeAllHistory : Builder → List Placeholder → History
  | _, [] => []
  | b, p :: rest => completeHistory read readHistory b p.slot p.phi ++
      after (complete read b p.slot p.phi) fun r => completeAllHistory r.2 rest

/-- The placeholders of a block that satisfy `which` are completed. -/
def completeWhereHistory (which : Slot → Bool) (b : Builder) (block : NodeId) : History :=
  completeAllHistory { b with placeholders := notDue which b block } (due which b block)

/-- **The history of sealing a block.** -/
def sealHistory (b : Builder) (block : NodeId) : History :=
  completeWhereHistory (· ≠ .effect) b block ++
    after (completeWhere (· ≠ .effect) b block) fun b =>
      completeWhereHistory (· = .effect) b block

/-! ## Reads and seals have sound histories -/

variable {asked : Kind → Prop} {b c d : Builder} {old : Nat} {first phi value block : NodeId}
  {slot : Slot}

/-- **A node is offered whose operands stand.** -/
theorem tells_offers (hwf : b.WellFormed) {kind : Kind} (hasked : asked kind)
    {operands : List NodeId} (ho : ∀ a ∈ operands, a < b.graph.size ∧ b.Stands a)
    (block : NodeId) :
    Tells asked b.toDraft [b.offers kind block operands]
      (b.lift (b.add kind block operands)).2.toDraft :=
  tells_offer (o := ⟨b.toDraft, kind, block, operands⟩) hasked hwf.coherent
    (fun a ha => (ho a ha).1) (fun x hx => (hwf.table x hx).1) fun _ hmem =>
      hwf.valueKey_of_stands hmem fun a ha =>
        (ho a ((ValueKey.perm_operands_of kind block operands).mem_iff.1 ha)).2

theorem tells_retire (hwf : b.WellFormed) (hp : (b.graph.kind phi).isPhi) (value : NodeId) :
    Tells asked b.toDraft [.detach phi] (b.retire phi value).toDraft := by
  refine tells_detach rfl (sameNodes_retire b phi value).size.symm.le
    (Log.reuses_push b.log rfl) (lt_of_isPhi hp) fun x hx _ he => ?_
  have hk := (hwf.table x hx).2.1
  rw [he] at hk
  rw [hk, Kind.isPhi_eq_false_of_isShareable (hwf.shared x hx).1] at hp
  cases hp

/-- **Simplifying has a sound history.** -/
theorem tells_simplify (hasked : asked .undefined) (bound : Nat) (hr : Ready old first b)
    (hp : Retirable old first b phi) :
    Tells asked b.toDraft (simplifyHistory bound b phi) (b.simplify bound phi).2.toDraft := by
  refine (simplify_induction
    (P := fun bound b phi r => Tells asked b.toDraft (simplifyHistory bound b phi) r.2.toDraft)
    (Q := fun bound users b c => Tells asked b.toDraft
      (revisitHistory (simplify bound) (simplifyHistory bound) b users) c.toDraft)
    (fun {bound b phi} _ _ hmany => ?_)
    (fun {_ b d phi value c} hr hp hreplaces _ husers => ?_) (.refl _ _)
    (fun hu hrest => ?_) (fun _ hu _ hf hrest => ?_) bound hr hp).2
  · have hnil : simplifyHistory bound b phi = [] := by
      unfold simplifyHistory
      split
      · rfl
      · split <;> simp_all
    exact hnil ▸ .refl _ _
  · obtain ⟨⟨hr', -⟩, hphi', -⟩ := hreplaces.spec hr hp
    have hretire := (tells_retire hr'.wf hphi'.isPhi value).trans husers
    cases hreplaces with
    | single hm =>
      rw [simplifyHistory, hm]
      exact hretire
    | none hm =>
      rw [simplifyHistory, hm]
      exact (tells_offers hr.wf hasked (forall_mem_nil _) Graph.startBlock).trans hretire
  · rw [revisitHistory, if_neg (by rwa [Bool.and_eq_true, isNone_iff_eq_none])]
    exact hrest
  · rw [revisitHistory, if_pos (by rw [hu.isPhi, isNone_iff_eq_none.2 hu.stands]; rfl)]
    exact hf.trans hrest

/-- **A read has a sound history**, whatever it is asked. -/
def Recounts (asked : Kind → Prop)
    (read : Builder → Slot → NodeId → Except Fault (NodeId × Builder))
    (history : Builder → Slot → NodeId → History) : Prop :=
  ∀ {b c : Builder} {slot : Slot} {block value : NodeId}, b.WellFormed →
    (b.graph.kind block).isBlock = true → read b slot block = .ok (value, c) →
    Tells asked b.toDraft (history b slot block) c.toDraft

section Complete

variable {read : Builder → Slot → NodeId → Except Fault (NodeId × Builder)}
  {history : Builder → Slot → NodeId → History}

theorem Fills.tells (hasked : asked .undefined) (ht : Tidy read)
    (hrecounts : Recounts asked read history) {indices : List Nat}
    (h : Fills read slot phi block indices b d) (hf : Filling phi b) :
    Tells asked b.toDraft (fillHistory read history slot phi block b indices)
      (d.simplify (d.graph.size + 1) phi).2.toDraft := by
  induction h with
  | nil =>
    exact tells_simplify hasked _ (hf.ready (Nat.zero_le _) (closed_zero _))
      (hf.retirable (Nat.zero_le _))
  | @cons index rest b c d pred value hp hr _ ih =>
    have hwf := hf.wf
    have hb := isBlock_of_predecessor? hwf hp
    have hpush : Tells asked c.toDraft []
        (c.withGraph (c.graph.pushOperand phi value)).toDraft :=
      tells_nil rfl (sameNodes_pushOperand c.graph phi value).size.symm.le rfl
    rw [fillHistory, hp]
    exact (hrecounts hwf hb hr).after hr
      (hpush.trans (ih (hf.push (ht hwf hb hr))))

theorem tells_complete (hasked : asked .undefined) (htidy : Tidy read)
    (hr : Recounts asked read history) (hf : Filling phi b)
    (h : complete read b slot phi = .ok (value, c)) :
    Tells asked b.toDraft (completeHistory read history b slot phi) c.toDraft := by
  obtain ⟨d, hfills, hs⟩ := complete_eq_ok.1 h
  have ht := hfills.tells hasked htidy hr hf
  rw [hs] at ht
  exact ht

end Complete

section

variable (hasked : asked .undefined)

include hasked

theorem recounts_readWithin (bound : Nat) :
    Recounts asked (readWithin bound) (readWithinHistory bound) := by
  induction bound with
  | zero => exact fun _ _ h => absurd h nofun
  | succ bound ih =>
    intro b c slot block value hwf hb h
    obtain ⟨_, hbound, hcase⟩ := readWithin_eq_ok.1 h
    cases hbound
    unfold readWithinHistory
    cases hcase with
    | found hd =>
      rw [hd]
      exact .refl _ _
    | @passes jump _ c hd hs hops hr =>
      rw [hd, hops]
      rw [if_pos hs]
      have hj := hwf.coherent.closed block jump (hops ▸ mem_singleton_self jump)
      show Tells asked b.toDraft _ c.toDraft
      exact ih hwf (hwf.home jump hj) hr
    | @merges _ c hd hs hops hr =>
      rw [hd]
      dsimp only
      rw [if_pos hs]
      have ho : Tells asked b.toDraft [] (b.openMerge slot block).toDraft :=
        tells_nil rfl (size_openMerge b slot block ▸ Nat.le_succ _) rfl
      have hc := ho.trans (tells_complete hasked (tidy_readWithin bound) ih
        (hwf.filling_openMerge hb hd) hr)
      split
      · rename_i jump hj
        exact absurd hj (hops jump)
      · exact hc
    | waits hd hs =>
      rw [hd]
      rw [hs]
      exact tells_nil rfl (size_openMerge b slot block ▸ Nat.le_succ _) rfl

theorem recounts_read : Recounts asked read readHistory :=
  fun hwf hb h => recounts_readWithin hasked _ hwf hb h

theorem CompletesAll.tells {l : List Placeholder} (h : CompletesAll l b c) (hwf : b.WellFormed)
    (hp : Pending l b) : Tells asked b.toDraft (completeAllHistory b l) c.toDraft := by
  induction h with
  | nil => exact .refl _ _
  | @cons p rest b c d value hf _ ih =>
    have hr := hp.head hwf hf
    exact (tells_complete hasked tidy_read (recounts_read hasked) (hp.filling hwf)
      hf).after hf (ih hr.wf (hp.tail hr))

theorem tells_completeWhere {which : Slot → Bool} (hwf : b.WellFormed)
    (h : completeWhere which b block = .ok c) :
    Tells asked b.toDraft (completeWhereHistory which b block) c.toDraft :=
  (completeWhere_eq_ok.1 h).tells hasked (hwf.notDue which block) (hwf.pending which block)

/-- Sealing a block has a sound history. -/
theorem tells_sealBlock (hwf : b.WellFormed) (h : b.sealBlock block = .ok c) :
    Tells asked b.toDraft (sealHistory b block) c.toDraft := by
  obtain ⟨d, e, hd, he, rfl⟩ := sealBlock_eq_ok.1 h
  have hl := tells_completeWhere hasked (completeWhere_spec hwf hd).1 he
  exact (tells_completeWhere hasked hwf hd).after hd hl

end

end Builder

end SsaCompiler
