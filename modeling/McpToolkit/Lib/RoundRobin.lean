import Mathlib.Data.List.Perm.Subperm
import Mathlib.Logic.Relation

/-!
# McpToolkit.Lib.RoundRobin — two nested queues that are served in turns

Groups stand in a queue, and the members of a group in a queue of its own.  A scan looks at the group in front: if none
of its live members is due the group goes to the back, if it has no live member it leaves, otherwise its first due member
is chosen.  What was chosen is skipped or served; after a service the member and its group go to the back.  Groups and
members may join at the back at any moment, and everything may be cleared.

While a member is live and due, `State.groupsAhead` and `State.membersAhead` are what may still be served before its
group and before itself.  `Step.spend_groups` and `Step.spend_members` say that no step adds to them and that each service
is taken from them.
-/

namespace McpToolkit.Lib.RoundRobin

open List Function

/-! ### Queues -/

section Queue

variable {α : Type} [DecidableEq α] {l l' : List α} {x y : α}

def toBack (l : List α) (x : α) : List α := if x ∈ l then l.erase x ++ [x] else l

/-- What stands before `x`. -/
def ahead (l : List α) (x : α) : List α := l.takeWhile (· ≠ x)

theorem nodup_of_subperm (h : l.Subperm l') (hl : l'.Nodup) : l.Nodup := by
  obtain ⟨_, hperm, hsub⟩ := h
  exact hperm.nodup_iff.mp (hl.sublist hsub)

theorem ahead_append_cons (h : x ∉ l) : ahead (l ++ x :: l') x = l := by
  have hall : ∀ y ∈ l, decide (y ≠ x) = true := fun y hy => decide_eq_true fun heq => h (heq ▸ hy)
  rw [ahead, takeWhile_append_of_pos hall, takeWhile_cons_of_neg (by simp), append_nil]

theorem ahead_append (h : x ∈ l) : ahead (l ++ l') x = ahead l x := by
  obtain ⟨a, b, rfl, ha⟩ := eq_append_cons_of_mem h
  rw [append_assoc, cons_append, ahead_append_cons ha, ahead_append_cons ha]

theorem ahead_cons_of_ne (h : y ≠ x) : ahead (y :: l) x = y :: ahead l x :=
  takeWhile_cons_of_pos (decide_eq_true h)

theorem ahead_erase_concat (h : x ∈ l) (hy : y ≠ x) : ahead (l.erase y ++ [y]) x = (ahead l x).erase y := by
  obtain ⟨a, b, rfl, ha⟩ := eq_append_cons_of_mem h
  rw [ahead_append_cons ha]
  by_cases hmem : y ∈ a
  · have hno : x ∉ a.erase y := fun hx => ha (mem_of_mem_erase hx)
    rw [erase_append_left _ hmem, append_assoc, cons_append, ahead_append_cons hno]
  · have hcons : (x :: b).erase y = x :: b.erase y := erase_cons_tail (by simpa using hy.symm)
    rw [erase_append_right _ hmem, hcons, append_assoc, cons_append, ahead_append_cons ha, erase_of_not_mem hmem]

theorem ahead_toBack (h : x ∈ l) (hy : y ≠ x) : ahead (toBack l y) x = (ahead l x).erase y := by
  unfold toBack
  split_ifs with hmem
  · exact ahead_erase_concat h hy
  · have hno : y ∉ ahead l x := fun hy' => hmem ((takeWhile_sublist _).subset hy')
    rw [erase_of_not_mem hno]

theorem ahead_filter {p : α → Bool} (hx : p x = true) : ahead (l.filter p) x = (ahead l x).filter p := by
  induction l with
  | nil => rfl
  | cons y l ih =>
    by_cases hyx : y = x
    · subst hyx
      rw [filter_cons_of_pos hx]
      simp [ahead]
    · rw [ahead_cons_of_ne hyx]
      by_cases hy : p y = true
      · rw [filter_cons_of_pos hy, filter_cons_of_pos hy, ahead_cons_of_ne hyx, ih]
      · rw [filter_cons_of_neg hy, filter_cons_of_neg hy, ih]

theorem find?_ahead {p : α → Bool} (hfind : l.find? p = some y) (hx : x ∈ l) (hp : p x = true) :
    y = x ∨ y ∈ ahead l x := by
  induction l with
  | nil => cases hx
  | cons z l ih =>
    by_cases hz : p z = true
    · rw [find?_cons_of_pos hz, Option.some_inj] at hfind
      subst hfind
      by_cases hzx : z = x
      · exact .inl hzx
      · rw [ahead_cons_of_ne hzx]
        exact .inr mem_cons_self
    · rw [find?_cons_of_neg hz] at hfind
      have hzx : z ≠ x := by
        rintro rfl
        exact hz hp
      rw [ahead_cons_of_ne hzx]
      exact (ih hfind ((mem_cons.mp hx).resolve_left hzx.symm)).imp_right (mem_cons_of_mem z)

end Queue

/-! ### Turns -/

variable {κ ι : Type}

/-- A member that was chosen, or that was served and has not gone to the back yet. -/
inductive Turn (κ ι : Type)
  | idle
  | chosen (k : κ) (i : ι)
  | served (k : κ) (i : ι)
  deriving DecidableEq

structure State (κ ι : Type) where
  groups : List κ
  members : κ → List ι
  turn : Turn κ ι

section Steps

variable [DecidableEq κ] [DecidableEq ι]

/-- A scan at one group; `live` and `due` are what the members are at that moment. -/
inductive Look (live due : ι → Bool) : State κ ι → State κ ι → Prop
  | pass (k gs members) : ((members k).filter live).find? due = none →
      Look live due ⟨k :: gs, members, .idle⟩
        ⟨gs ++ [k], Function.update members k ((members k).filter live), .idle⟩
  | leave (k gs members) : (members k).filter live = [] →
      Look live due ⟨k :: gs, members, .idle⟩ ⟨gs, Function.update members k [], .idle⟩
  | choose (k gs members i) : ((members k).filter live).find? due = some i →
      Look live due ⟨k :: gs, members, .idle⟩
        ⟨k :: gs, Function.update members k ((members k).filter live), .chosen k i⟩

/-- A step, and what it serves. -/
inductive Step (live due : ι → Bool) : State κ ι → Option (κ × ι) → State κ ι → Prop
  | scan {s s'} : Relation.ReflTransGen (Look live due) s s' → Step live due s none s'
  | join (s : State κ ι) (gs : List κ) (extra : κ → List ι) : Step live due s none ⟨s.groups ++ gs, fun k => s.members k ++ extra k, s.turn⟩
  | skip (groups members k i) : Step live due ⟨groups, members, .chosen k i⟩ none ⟨groups, members, .idle⟩
  | serve (k gs members i) :
      Step live due ⟨k :: gs, members, .chosen k i⟩ (some (k, i)) ⟨k :: gs, members, .served k i⟩
  | rotate (groups members k i) : Step live due ⟨groups, members, .served k i⟩ none
      ⟨toBack groups k, Function.update members k (toBack (members k) i), .idle⟩
  | clear (s) : Step live due s none ⟨[], fun _ => [], s.turn⟩

end Steps

/-- `t` is queued in the group `k`, live and due. -/
structure Waiting (live due : ι → Bool) (k : κ) (t : ι) (s : State κ ι) : Prop where
  group : k ∈ s.groups
  member : t ∈ s.members k
  live : live t = true
  due : due t = true

namespace State

/-- The groups that may be served before `k`. -/
def groupsAhead [DecidableEq κ] (s : State κ ι) (k : κ) : List κ :=
  match s.turn with
  | .served k' _ => (ahead s.groups k).erase k'
  | _ => ahead s.groups k

/-- A member of `k` behind `t` that was chosen before. -/
def chosenBehind [DecidableEq κ] [DecidableEq ι] (s : State κ ι) (k : κ) (t : ι) : List ι :=
  match s.turn with
  | .chosen k' i => if k' = k ∧ i ≠ t ∧ i ∉ ahead (s.members k) t then [i] else []
  | _ => []

/-- The members of `k` that may be served before `t`. -/
def membersAhead [DecidableEq κ] [DecidableEq ι] (s : State κ ι) (k : κ) (t : ι) : List ι :=
  match s.turn with
  | .served k' i => if k' = k then (ahead (s.members k) t).erase i else ahead (s.members k) t
  | _ => ahead (s.members k) t ++ s.chosenBehind k t

/-- What is ahead of `t` and what was chosen behind it are distinct, and one was chosen at most. -/
theorem chosenBehind_nodup [DecidableEq κ] [DecidableEq ι] (s : State κ ι) {k : κ} {t : ι} (h : (s.members k).Nodup) :
    (ahead (s.members k) t ++ s.chosenBehind k t).Nodup ∧ (s.chosenBehind k t).length ≤ 1 := by
  have hahead : (ahead (s.members k) t).Nodup := h.sublist (takeWhile_sublist _)
  unfold chosenBehind
  split
  · split_ifs with hi
    · refine ⟨nodup_append.mpr ⟨hahead, by simp, ?_⟩, Nat.le_refl 1⟩
      rintro x hx y hy rfl
      exact hi.2.2 (mem_singleton.mp hy ▸ hx)
    · simpa using hahead
  · simpa using hahead

end State

/-! ### No step adds to what is ahead -/

section Spend

variable {live due : ι → Bool} {k : κ} {t : ι} {s s' : State κ ι}

theorem find?_ne_none (h : Waiting live due k t s) : ((s.members k).filter live).find? due ≠ none := by
  intro hnone
  rw [find?_eq_none] at hnone
  exact hnone t (mem_filter.mpr ⟨h.member, h.live⟩) h.due

theorem front_ne {k' : κ} {gs : List κ} {members : κ → List ι} {turn : Turn κ ι}
    (h : Waiting live due k t ⟨k' :: gs, members, turn⟩)
    (hnone : ((members k').filter live).find? due = none) : k' ≠ k := by
  rintro rfl
  exact find?_ne_none h hnone

theorem Waiting.tail [DecidableEq κ] {k' : κ} {gs gs' : List κ} {members : κ → List ι} {queue : List ι} {turn turn' : Turn κ ι}
    (h : Waiting live due k t ⟨k' :: gs, members, turn⟩) (hne : k' ≠ k) (hgs : gs ⊆ gs') :
    Waiting live due k t ⟨gs', Function.update members k' queue, turn'⟩ where
  group := hgs ((mem_cons.mp h.group).resolve_left hne.symm)
  member := by
    dsimp only
    rw [update_of_ne hne.symm]
    exact h.member
  live := h.live
  due := h.due

variable [DecidableEq κ]

theorem scan_turn (h : Relation.ReflTransGen (Look live due) s s') {k' : κ} {i : ι}
    (hs : s.turn ≠ .served k' i) : s'.turn ≠ .served k' i := by
  cases h with
  | refl => exact hs
  | tail _ hlook => cases hlook <;> exact nofun

theorem Look.waiting (h : Look live due s s') (hs : Waiting live due k t s) : Waiting live due k t s' := by
  cases h with
  | pass k' gs members hnone => exact hs.tail (front_ne hs hnone) (subset_append_left _ _)
  | leave k' gs members hnone =>
    refine hs.tail (front_ne hs ?_) (List.Subset.refl _)
    rw [hnone, find?_nil]
  | choose k' gs members i hfind =>
    refine ⟨hs.group, ?_, hs.live, hs.due⟩
    by_cases hk : k = k'
    · subst hk
      dsimp only
      rw [update_self]
      exact mem_filter.mpr ⟨hs.member, hs.live⟩
    · dsimp only
      rw [update_of_ne hk]
      exact hs.member

theorem Look.groups (h : Look live due s s') (hs : Waiting live due k t s) :
    (s'.groupsAhead k).Sublist (s.groupsAhead k) := by
  cases h with
  | pass k' gs members hnone =>
    have hne := front_ne hs hnone
    have hmem := (mem_cons.mp hs.group).resolve_left hne.symm
    show (ahead (gs ++ [k']) k).Sublist (ahead (k' :: gs) k)
    rw [ahead_append hmem, ahead_cons_of_ne hne]
    exact sublist_cons_self _ _
  | leave k' gs members hnone =>
    have hne : k' ≠ k := front_ne hs (by rw [hnone, find?_nil])
    show (ahead gs k).Sublist (ahead (k' :: gs) k)
    rw [ahead_cons_of_ne hne]
    exact sublist_cons_self _ _
  | choose k' gs members i hfind => exact List.Sublist.refl _

variable [DecidableEq ι]

theorem membersAhead_chosen {groups : List κ} {members : κ → List ι} {k' : κ} {i : ι}
    (h : k' = k → i = t ∨ i ∈ ahead (members k) t) :
    State.membersAhead ⟨groups, members, .chosen k' i⟩ k t = ahead (members k) t := by
  have hno : ¬ (k' = k ∧ i ≠ t ∧ i ∉ ahead (members k) t) := by
    rintro ⟨hk, hit, hmem⟩
    exact (h hk).elim hit hmem
  unfold State.membersAhead State.chosenBehind
  dsimp only
  rw [if_neg hno, append_nil]

theorem Look.members (h : Look live due s s') (hs : Waiting live due k t s) :
    (s'.membersAhead k t).Sublist (s.membersAhead k t) := by
  cases h with
  | pass k' gs members hnone =>
    have hne := front_ne hs hnone
    show (ahead (Function.update members k' _ k) t ++ []).Sublist (ahead (members k) t ++ [])
    rw [update_of_ne hne.symm]
  | leave k' gs members hnone =>
    have hne : k' ≠ k := front_ne hs (by rw [hnone, find?_nil])
    show (ahead (Function.update members k' _ k) t ++ []).Sublist (ahead (members k) t ++ [])
    rw [update_of_ne hne.symm]
  | choose k' gs members i hfind =>
    by_cases hk : k' = k
    · subst hk
      -- the first due member is `t` or ahead of it
      have hlive : t ∈ (members k').filter live := mem_filter.mpr ⟨hs.member, hs.live⟩
      have hfirst := find?_ahead hfind hlive hs.due
      rw [← update_self k' ((members k').filter live) members] at hfirst
      rw [membersAhead_chosen fun _ => hfirst, update_self, ahead_filter hs.live]
      show (List.filter live _).Sublist (ahead (members k') t ++ [])
      rw [append_nil]
      exact filter_sublist
    · rw [membersAhead_chosen fun h => absurd h hk, update_of_ne (Ne.symm hk)]
      exact sublist_append_left _ _

theorem scan_sublist (h : Relation.ReflTransGen (Look live due) s s') (hs : Waiting live due k t s) :
    Waiting live due k t s' ∧ (s'.groupsAhead k).Sublist (s.groupsAhead k) ∧
      (s'.membersAhead k t).Sublist (s.membersAhead k t) := by
  induction h with
  | refl => exact ⟨hs, List.Sublist.refl _, List.Sublist.refl _⟩
  | tail _ hlook ih =>
    obtain ⟨hwait, hgroups, hmembers⟩ := ih
    exact ⟨hlook.waiting hwait, (hlook.groups hwait).trans hgroups, (hlook.members hwait).trans hmembers⟩

/-- **Before its group**: each service of another group is taken from the groups ahead. -/
theorem Step.spend_groups {out : Option (κ × ι)} (h : Step live due s out s') (hs : Waiting live due k t s)
    (hturn : ∀ i, s.turn ≠ .served k i) (hout : ∀ r ∈ out, r.1 ≠ k) :
    ((out.map Prod.fst).toList ++ s'.groupsAhead k).Subperm (s.groupsAhead k) ∧ ∀ i, s'.turn ≠ .served k i := by
  cases h with
  | scan hscan => exact ⟨(scan_sublist hscan hs).2.1.subperm, fun i => scan_turn hscan (hturn i)⟩
  | join s gs extra =>
    refine ⟨?_, hturn⟩
    simp only [State.groupsAhead, ahead_append hs.group]
    exact List.Subperm.refl _
  | skip groups members k' i => exact ⟨List.Subperm.refl _, nofun⟩
  | serve k' gs members i =>
    have hne : k' ≠ k := hout (k', i) rfl
    refine ⟨?_, fun i' => ?_⟩
    · refine (perm_cons_erase ?_).symm.subperm
      show k' ∈ ahead (k' :: gs) k
      rw [ahead_cons_of_ne hne]
      exact mem_cons_self
    · rintro ⟨⟩
      exact hne rfl
  | rotate groups members k' i =>
    have hne : k' ≠ k := by
      rintro rfl
      exact hturn i rfl
    refine ⟨?_, nofun⟩
    show (ahead (toBack groups k') k).Subperm ((ahead groups k).erase k')
    rw [ahead_toBack hs.group hne]
  | clear s =>
    refine ⟨?_, hturn⟩
    have hnil : State.groupsAhead (⟨[], fun _ => [], s.turn⟩ : State κ ι) k = [] := by
      cases hst : s.turn <;> simp [State.groupsAhead, ahead]
    rw [hnil]
    exact nil_subperm

/-- **Before itself**: each service of another member of its group is taken from the members ahead. -/
theorem Step.spend_members {out : Option (κ × ι)} (h : Step live due s out s') (hs : Waiting live due k t s)
    (hturn : s.turn ≠ .served k t) (hout : ∀ r ∈ out, r ≠ (k, t)) :
    (((out.filter fun r => r.1 = k).map Prod.snd).toList ++ s'.membersAhead k t).Subperm (s.membersAhead k t) ∧
      s'.turn ≠ .served k t := by
  cases h with
  | scan hscan => exact ⟨(scan_sublist hscan hs).2.2.subperm, scan_turn hscan hturn⟩
  | join s gs extra =>
    refine ⟨?_, hturn⟩
    simp only [State.membersAhead, State.chosenBehind, ahead_append hs.member]
    exact List.Subperm.refl _
  | skip groups members k' i =>
    refine ⟨?_, nofun⟩
    show (ahead (members k) t ++ []).Subperm (ahead (members k) t ++ _)
    rw [append_nil]
    exact (sublist_append_left _ _).subperm
  | serve k' gs members i =>
    by_cases hk : k' = k
    · subst hk
      have hit : i ≠ t := fun heq => hout (k', i) rfl (by rw [heq])
      refine ⟨?_, ?_⟩
      · unfold State.membersAhead State.chosenBehind
        dsimp only
        rw [Option.filter_some, if_pos (decide_eq_true rfl), if_pos rfl]
        by_cases hmem : i ∈ ahead (members k') t
        · rw [if_neg fun h => h.2.2 hmem, append_nil]
          exact (perm_cons_erase hmem).symm.subperm
        · rw [if_pos ⟨rfl, hit, hmem⟩, erase_of_not_mem hmem]
          exact (perm_append_singleton i _).symm.subperm
      · rintro ⟨⟩
        exact hit rfl
    · refine ⟨?_, ?_⟩
      · unfold State.membersAhead State.chosenBehind
        dsimp only
        rw [Option.filter_some, if_neg (by simpa using hk), if_neg hk, if_neg fun h => hk h.1, append_nil]
        exact List.Subperm.refl _
      · rintro ⟨⟩
        exact hk rfl
  | rotate groups members k' i =>
    refine ⟨?_, nofun⟩
    show (ahead (Function.update members k' (toBack (members k') i) k) t ++ []).Subperm
      (if k' = k then (ahead (members k) t).erase i else ahead (members k) t)
    rw [append_nil]
    by_cases hk : k' = k
    · subst hk
      have hit : i ≠ t := by
        rintro rfl
        exact hturn rfl
      rw [if_pos rfl, update_self, ahead_toBack hs.member hit]
    · rw [if_neg hk, update_of_ne (Ne.symm hk)]
  | clear s =>
    refine ⟨?_, hturn⟩
    show (State.membersAhead ⟨[], fun _ => [], s.turn⟩ k t).Subperm (s.membersAhead k t)
    unfold State.membersAhead State.chosenBehind
    cases s.turn with
    | idle => exact nil_subperm
    | served k' i =>
      dsimp only
      split_ifs <;> exact nil_subperm
    | chosen k' i =>
      dsimp only
      by_cases hchosen : k' = k ∧ i ≠ t
      · -- what was chosen stands in both
        rw [if_pos ⟨hchosen.1, hchosen.2, not_mem_nil⟩]
        show [i].Subperm _
        rw [singleton_subperm_iff, mem_append]
        by_cases hmem : i ∈ ahead (s.members k) t
        · exact .inl hmem
        · rw [if_pos ⟨hchosen.1, hchosen.2, hmem⟩]
          exact .inr (mem_singleton_self i)
      · rw [if_neg fun h => hchosen ⟨h.1, h.2.1⟩]
        exact nil_subperm

omit [DecidableEq ι] in
theorem groupsAhead_subperm (s : State κ ι) (k : κ) : (s.groupsAhead k).Subperm (ahead s.groups k) := by
  unfold State.groupsAhead
  cases s.turn with
  | served k' i => exact (erase_sublist ).subperm
  | _ => exact List.Subperm.refl _

theorem membersAhead_subperm (s : State κ ι) (k : κ) (t : ι) :
    (s.membersAhead k t).Subperm (ahead (s.members k) t ++ s.chosenBehind k t) := by
  unfold State.membersAhead
  cases hturn : s.turn with
  | served k' i =>
    have hbehind : s.chosenBehind k t = [] := by rw [State.chosenBehind, hturn]
    rw [hbehind, append_nil]
    dsimp only
    split_ifs
    · exact (erase_sublist).subperm
    · exact List.Subperm.refl _
  | _ => exact List.Subperm.refl _

end Spend

end McpToolkit.Lib.RoundRobin
