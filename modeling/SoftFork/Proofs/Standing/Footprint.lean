import SoftFork.Proofs.History.Growth
import SoftFork.Proofs.Standing.Settled

/-!
# What a question leaves in the memo

A memo serves all branches at once, and a question about one branch must not
disturb what is remembered for another.  That nothing *wrong* is ever written was
shown for memos that are right to begin with.  Here nothing is asked of the memo,
so the entries may be anything, and what is shown is where the question writes.

Entries that are there stay (`Memo.Extends.kept`): the walk stops at the first
closing block with an entry, so everything it leaves to be dealt with is without
one.  New entries are for closing blocks that the block in question stands on
(`Memo.Extends.added`), whatever other branches hold at the same heights, because
the tree finds an ancestor only where the links lead.

The last block to be dealt with is the closing block where the walk began.  Its
entry is the answer, and a second question finds it at once.
-/

namespace SoftFork

/-- The entries of another memo are all there, unchanged, and further ones are for blocks of a
certain kind. -/
structure Memo.Extends (after before : Memo) (fresh : BlockId → Prop) : Prop where
  /-- No entry is changed or dropped. -/
  kept : ∀ {id : BlockId} {s : Standing}, before[id]? = some s → after[id]? = some s
  /-- An entry that was not there is for such a block. -/
  added : ∀ {id : BlockId} {s : Standing}, before[id]? = none → after[id]? = some s → fresh id

namespace Memo

theorem getElem?_insert_self (m : Memo) (id : BlockId) (s : Standing) :
    (m.insert id s)[id]? = some s :=
  Std.ExtTreeMap.getElem?_insert_self

theorem getElem?_insert_ne (m : Memo) {id a : BlockId} (h : a ≠ id) (s : Standing) :
    (m.insert id s)[a]? = m[a]? := by
  rw [Std.ExtTreeMap.getElem?_insert, if_neg]
  exact fun heq => h (Std.LawfulEqCmp.compare_eq_iff_eq.mp heq).symm

namespace Extends

variable {after before : Memo} {fresh : BlockId → Prop}

theorem refl (m : Memo) (fresh : BlockId → Prop) : m.Extends m fresh where
  kept h := h
  added hnone hsome := by
    rw [hnone] at hsome
    exact absurd hsome (by simp)

theorem mono (h : after.Extends before fresh) {wider : BlockId → Prop}
    (hwider : ∀ id, fresh id → wider id) : after.Extends before wider :=
  ⟨h.kept, fun hnone hsome => hwider _ (h.added hnone hsome)⟩

/-- One more entry, at a block that had none to begin with. -/
theorem insert (h : after.Extends before fresh) {id : BlockId} (hnone : before[id]? = none)
    (hid : fresh id) (s : Standing) : Memo.Extends (after.insert id s) before fresh where
  kept {a s'} ha := by
    have hne : a ≠ id := by
      rintro rfl
      rw [hnone] at ha
      exact absurd ha (by simp)
    rw [getElem?_insert_ne after hne]
    exact h.kept ha
  added {a s'} hbefore hafter := by
    by_cases heq : a = id
    · rw [heq]
      exact hid
    · rw [getElem?_insert_ne after heq] at hafter
      exact h.added hbefore hafter

end Extends
end Memo

namespace View

variable {v : View} {clock : Clock} {ballot : Ballot}

/-- When a closing block has been dealt with, its standing is what is returned and what is
remembered at it. -/
theorem dealWith_eq_ok {id : BlockId} {before : Except Fault Standing × Memo} {s : Standing}
    {after : Memo} (h : v.dealWith clock ballot id before = (.ok s, after)) :
    ∃ below m, before = (.ok below, m) ∧ after = m.insert id s := by
  obtain ⟨r, m⟩ := before
  cases r with
  | error e => exact absurd (congrArg Prod.fst h) (by simp [dealWith])
  | ok below =>
    rw [dealWith] at h
    cases hnext : v.nextStanding clock ballot id below with
    | error e =>
      rw [hnext] at h
      exact absurd (congrArg Prod.fst h) (by simp)
    | ok next =>
      rw [hnext] at h
      obtain ⟨hs, hafter⟩ := Prod.mk.inj h
      obtain rfl := Except.ok.inj hs
      exact ⟨below, m, rfl, hafter.symm⟩

end View

namespace BlockTree

variable {t : BlockTree} {clock : Clock} {ballot : Ballot} {m : Memo}

/-- `a` closes a period, and the block `id` stands on it. -/
def ClosesBelow (t : BlockTree) (period : Nat) (id a : BlockId) : Prop :=
  StandsOn t.block? id a ∧ ∃ periods, t.view.Closes period a periods

/-- What a question about `prev` leaves in the memo when it is answered. -/
structure Leaves (t : BlockTree) (clock : Clock) (ballot : Ballot) (prev : Option BlockId)
    (m : Memo) (s : Standing) (after : Memo) : Prop where
  /-- Entries are only added, and only at closing blocks below `prev`. -/
  writes : after.Extends m fun a => ∃ id, prev = some id ∧ t.ClosesBelow ballot.period id a
  /-- The answer is remembered at the latest closing block. -/
  answer : ∀ {id c : BlockId}, prev = some id →
    t.view.closing ballot.period id = .ok (some c) → after[c]? = some s
  /-- The same question is answered once more, and then leaves everything as it is. -/
  again : t.view.standing clock ballot prev after = (.ok s, after)

/-- Where no period has closed the memo is neither read nor written. -/
theorem leaves_of_none {prev : Option BlockId} {s : Standing} {after : Memo}
    (hnone : ∀ id, prev = some id → t.view.closing ballot.period id = .ok none)
    (h : t.view.standing clock ballot prev m = (.ok s, after)) :
    t.Leaves clock ballot prev m s after := by
  have hanswer : ∀ m, t.view.standing clock ballot prev m = (.ok .initial, m) := by
    intro m
    cases prev with
    | none => rfl
    | some id =>
      rw [View.standing_eq_finish, View.trailFrom, hnone id rfl]
      rfl
  rw [hanswer] at h
  obtain ⟨hs, rfl⟩ := Prod.mk.inj h
  obtain rfl := Except.ok.inj hs
  refine ⟨.refl m _, fun hprev hclosing => ?_, hanswer m⟩
  rw [hnone _ hprev] at hclosing
  exact absurd hclosing (by simp)

namespace Sound

/-- A walk that is answered has written at closing blocks below only, at none that had an entry,
and the answer at the closing block where it began. -/
theorem walksTo_extends (ht : t.Sound) {id : BlockId} {r : Except Fault Standing × Memo}
    (h : t.view.WalksTo clock ballot m id r) :
    ∀ {s : Standing} {after : Memo}, (∃ periods, t.view.Closes ballot.period id periods) →
      r = (.ok s, after) →
      after.Extends m (t.ClosesBelow ballot.period id) ∧ after[id]? = some s := by
  induction h with
  | @entry id s' hmem =>
    rintro s after hid hr
    obtain ⟨hs, rfl⟩ := Prod.mk.inj hr
    obtain rfl := Except.ok.inj hs
    exact ⟨.refl m _, hmem⟩
  | refused => exact fun _ hr => absurd (congrArg Prod.fst hr) (by simp)
  | @quiet id hmem =>
    rintro s after hid hr
    obtain ⟨hs, rfl⟩ := Prod.mk.inj hr
    obtain rfl := Except.ok.inj hs
    exact ⟨(Memo.Extends.refl m _).insert hmem ⟨.self, hid⟩ _, m.getElem?_insert_self id _⟩
  | @first id b hmem =>
    rintro s after hid hr
    obtain ⟨below, m', hbefore, rfl⟩ := View.dealWith_eq_ok hr
    obtain rfl := (Prod.mk.inj hbefore).2
    exact ⟨(Memo.Extends.refl m _).insert hmem ⟨.self, hid⟩ _, m.getElem?_insert_self id _⟩
  | lost => exact fun _ hr => absurd (congrArg Prod.fst hr) (by simp)
  | @later id earlier b r hmem hquiet hb hge hearlier _ ih =>
    rintro s after ⟨periods, hid⟩ hr
    obtain ⟨below, m', rfl, rfl⟩ := View.dealWith_eq_ok hr
    obtain ⟨periods, rfl⟩ := hid.exists_eq_succ
    have hcloses := View.closes_earlier ht.climbs hb hid hge hearlier
    obtain ⟨hextends, -⟩ := ih ⟨periods, hcloses⟩ rfl
    -- what is below the earlier closing block is below this one
    have hbelow : ∀ a, t.ClosesBelow ballot.period earlier a → t.ClosesBelow ballot.period id a :=
      fun a ha => ⟨(ht.standsOn_of_ancestor hearlier).trans ha.1, ha.2⟩
    exact ⟨(hextends.mono hbelow).insert hmem ⟨.self, _, hid⟩ s, m'.getElem?_insert_self id s⟩

/-- What is remembered at the closing block below a block is the answer there. -/
theorem standing_of_entry (ht : t.Sound) {id c : BlockId} {s : Standing}
    (hclosing : t.view.closing ballot.period id = .ok (some c)) (hmem : m[c]? = some s) :
    t.view.standing clock ballot (some id) m = (.ok s, m) := by
  obtain ⟨periods, hcloses, htrail⟩ := View.exists_trail ht.lawful_view hclosing
  obtain ⟨periods, rfl⟩ := hcloses.exists_eq_succ
  rw [View.standing_eq_finish, htrail, View.trail_of_entry hmem]
  rfl

theorem leaves_of_closing (ht : t.Sound) {id c : BlockId} {s : Standing} {after : Memo}
    (hclosing : t.view.closing ballot.period id = .ok (some c))
    (h : t.view.standing clock ballot (some id) m = (.ok s, after)) :
    t.Leaves clock ballot (some id) m s after := by
  obtain ⟨periods, hcloses, htrail⟩ := View.exists_trail ht.lawful_view hclosing
  rw [View.standing_eq_finish, htrail] at h
  obtain ⟨hextends, hanswer⟩ := ht.walksTo_extends
    (View.walksTo_finish ht.climbs periods hcloses) ⟨periods, hcloses⟩ h
  refine ⟨hextends.mono fun a ha => ?_, fun hprev hclosing' => ?_,
    ht.standing_of_entry hclosing hanswer⟩
  · exact ⟨id, rfl, (ht.standsOn_of_closing hclosing).trans ha.1, ha.2⟩
  · obtain rfl := Option.some.inj hprev
    rw [hclosing] at hclosing'
    obtain rfl := Option.some.inj (Except.ok.inj hclosing')
    exact hanswer

/-- An answered question writes where it may and remembers its answer, whatever the memo held. -/
theorem leaves_of_standing (ht : t.Sound) {prev : Option BlockId} {s : Standing} {after : Memo}
    (h : t.view.standing clock ballot prev m = (.ok s, after)) :
    t.Leaves clock ballot prev m s after := by
  cases prev with
  | none => exact leaves_of_none (fun _ hprev => absurd hprev (by simp)) h
  | some id =>
    cases hclosing : t.view.closing ballot.period id with
    | error e =>
      rw [View.standing_eq_finish, View.trailFrom, hclosing] at h
      exact absurd (congrArg Prod.fst h) (by simp [View.finish])
    | ok c? =>
      cases c? with
      | none =>
        refine leaves_of_none (fun id' hprev => ?_) h
        obtain rfl := Option.some.inj hprev
        exact hclosing
      | some c => exact ht.leaves_of_closing hclosing h

end Sound
end BlockTree
end SoftFork
