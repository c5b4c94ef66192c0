import SoftFork.Rule.Registry
import SoftFork.Standing.Bank
import SoftFork.Proofs.History.Growth
import SoftFork.Proofs.Standing.OnPast

/-!
# What all the memory may hold

A bank has one memo for each ballot that is ever asked about: those of the
deployments and those of the bits.  It is `Coherent` when the memos are there and
each is faithful to the ballot of its own slot.

Coherence says nothing about what is remembered, only about what it is worth, and
so it lasts:

* a memo may be replaced by any other one that is faithful (`Coherent.set`);
* entries may be dropped, in one slot or in all (`Coherent.map`);
* history may grow (`Coherent.grow`).

The last point is the one that takes an argument.  Blocks may be added above,
beside and, with a further detached base, far below those that are remembered,
and the active chain may move.  But an entry holds a standing and not a refusal.
That standing can be read off the past of its block, and the past stays.
-/

namespace SoftFork

/-! ## Faithful memos in growing histories -/

/-- What is faithful stays so in every view that has the same blocks and perhaps more. -/
theorem Memo.Faithful.grow {v w : View} {clock : Clock} {ballot : Ballot} {m : Memo}
    (hm : m.Faithful v clock ballot) (hv : v.Climbs) (hw : w.Climbs)
    (hsub : ∀ id b, v.block? id = some b → w.block? id = some b) :
    m.Faithful w clock ballot := by
  intro id s hs
  obtain ⟨periods, hcloses, hsettled⟩ := hm id s hs
  have hperiod := hcloses.pos
  obtain ⟨past, hpast, hcon, hpos, hnext⟩ := hcloses
  have hpast' := hpast.mono hsub
  refine ⟨periods, ⟨past, hpast', hcon, hpos, hnext⟩, ?_⟩
  -- the old view gave a standing, so the past does, and the new view has to
  have hpasts := (View.settled_tells hv periods hpast hcon hpos).eq_some hsettled
  have htells : Tells (w.settled clock ballot periods id) _ :=
    View.settled_tells hw periods hpast' hcon hpos
  rw [hpasts] at htells
  exact htells

/-- What is left of a memo is what was in it and passes the test. -/
theorem Memo.getElem?_keep_eq_some_iff {m : Memo} {test : BlockId → Bool} {id : BlockId}
    {s : Standing} : (m.keep test)[id]? = some s ↔ m[id]? = some s ∧ test id = true := by
  rw [Memo.keep, Std.ExtTreeMap.getElem?_filter', Option.filter_eq_some_iff]

theorem Memo.getElem?_of_keep {m : Memo} {test : BlockId → Bool} {id : BlockId} {s : Standing}
    (h : (m.keep test)[id]? = some s) : m[id]? = some s :=
  (Memo.getElem?_keep_eq_some_iff.mp h).1

/-! ## Slots -/

/-- The ballot whose standings a slot is for. -/
def Registry.ballot? (registry : Registry) : Slot → Option Ballot
  | .deployment position => registry.deployments[position]?.map Deployment.ballot
  | .bit bit =>
    if bit < Version.bitCount then some (.unclaimed (UInt8.ofNat bit) registry.params) else none

namespace MemoBank

theorem get_set (bank : MemoBank) (slot slot' : Slot) (m : Memo) :
    (bank.set slot m).get slot' =
      if slot = slot' then (bank.get slot').map fun _ => m else bank.get slot' := by
  by_cases h : slot = slot'
  · subst h
    rw [if_pos rfl]
    cases slot with
    | deployment i =>
      simp only [set, get, List.getElem?_set_self']
      cases bank.deployments[i]? <;> rfl
    | bit i =>
      simp only [set, get, List.getElem?_set_self']
      cases bank.bits[i]? <;> rfl
  · rw [if_neg h]
    cases slot with
    | deployment i =>
      cases slot' with
      | deployment j => simp only [set, get, List.getElem?_set_ne (mt (congrArg Slot.deployment) h)]
      | bit j => rfl
    | bit i =>
      cases slot' with
      | deployment j => rfl
      | bit j => simp only [set, get, List.getElem?_set_ne (mt (congrArg Slot.bit) h)]

theorem get_keep (bank : MemoBank) (test : BlockId → Bool) (slot : Slot) :
    (bank.keep test).get slot = (bank.get slot).map (Memo.keep · test) := by
  cases slot with
  | deployment i =>
    simp only [keep, get, List.getElem?_map]
    cases bank.deployments[i]? <;> rfl
  | bit i =>
    simp only [keep, get, List.getElem?_map]
    cases bank.bits[i]? <;> rfl

theorem get_clear (bank : MemoBank) (slot : Slot) :
    bank.clear.get slot = (bank.get slot).map fun _ => .empty := by
  cases slot with
  | deployment i =>
    simp only [clear, get, List.getElem?_map]
    cases bank.deployments[i]? <;> rfl
  | bit i =>
    simp only [clear, get, List.getElem?_map]
    cases bank.bits[i]? <;> rfl

/-- Where there is a ballot there is an empty memo to begin with, and nowhere else. -/
theorem get_empty (registry : Registry) (slot : Slot) :
    (∃ ballot, registry.ballot? slot = some ballot ∧
      (empty registry.deployments.length).get slot = .ok .empty) ∨
    (registry.ballot? slot = none ∧
      ∃ e, (empty registry.deployments.length).get slot = .error e) := by
  cases slot with
  | deployment i =>
    simp only [Registry.ballot?, empty, get, List.getElem?_replicate]
    by_cases h : i < registry.deployments.length
    · rw [if_pos h, List.getElem?_eq_getElem h]
      exact Or.inl ⟨_, rfl, rfl⟩
    · rw [if_neg h, List.getElem?_eq_none (Nat.le_of_not_lt h)]
      exact Or.inr ⟨rfl, _, rfl⟩
  | bit i =>
    simp only [Registry.ballot?, empty, get, List.getElem?_replicate]
    by_cases h : i < Version.bitCount
    · rw [if_pos h, if_pos h]
      exact Or.inl ⟨_, rfl, rfl⟩
    · rw [if_neg h, if_neg h]
      exact Or.inr ⟨rfl, _, rfl⟩

/-! ## Coherent banks -/

/-- Every ballot has its memo, and every memo is that of a ballot and faithful to it. -/
structure Coherent (bank : MemoBank) (registry : Registry) (clock : Clock) (v : View) : Prop where
  /-- There is a memo for every ballot. -/
  exists_memo : ∀ {slot ballot}, registry.ballot? slot = some ballot → ∃ m, bank.get slot = .ok m
  /-- There is a ballot for every memo, and what is remembered is right for it. -/
  faithful : ∀ {slot m}, bank.get slot = .ok m →
    ∃ ballot, registry.ballot? slot = some ballot ∧ m.Faithful v clock ballot

variable {bank : MemoBank} {registry : Registry} {clock : Clock} {v : View}

theorem coherent_empty : (empty registry.deployments.length).Coherent registry clock v where
  exists_memo {slot ballot} hballot := by
    rcases get_empty registry slot with ⟨_, -, hget⟩ | ⟨hnone, -⟩
    · exact ⟨_, hget⟩
    · rw [hnone] at hballot
      exact absurd hballot (by simp)
  faithful {slot m} hm := by
    rcases get_empty registry slot with ⟨ballot, hballot, hget⟩ | ⟨-, e, hget⟩
    · rw [hget] at hm
      obtain rfl := Except.ok.inj hm
      exact ⟨ballot, hballot, Memo.faithful_empty⟩
    · rw [hget] at hm
      exact absurd hm (by simp)

/-- A memo may be replaced by another one that is faithful to the slot's ballot. -/
theorem Coherent.set (h : bank.Coherent registry clock v) {slot : Slot} {ballot : Ballot}
    (hballot : registry.ballot? slot = some ballot) {m : Memo} (hm : m.Faithful v clock ballot) :
    (bank.set slot m).Coherent registry clock v where
  exists_memo {slot' ballot'} hballot' := by
    obtain ⟨m', hm'⟩ := h.exists_memo hballot'
    rw [get_set, hm']
    split
    · exact ⟨m, rfl⟩
    · exact ⟨m', rfl⟩
  faithful {slot' m'} hget := by
    rw [get_set] at hget
    split at hget
    · next heq =>
      subst heq
      obtain ⟨before, hbefore⟩ := h.exists_memo hballot
      rw [hbefore] at hget
      obtain rfl := Except.ok.inj hget
      exact ⟨ballot, hballot, hm⟩
    · exact h.faithful hget

/-- Entries may be dropped anywhere. -/
theorem Coherent.map (h : bank.Coherent registry clock v) {less : MemoBank} {drop : Memo → Memo}
    (hget : ∀ slot, less.get slot = (bank.get slot).map drop)
    (hdrop : ∀ (m : Memo) (id : BlockId) (s : Standing),
      (drop m)[id]? = some s → m[id]? = some s) :
    less.Coherent registry clock v where
  exists_memo {slot ballot} hballot := by
    obtain ⟨m, hm⟩ := h.exists_memo hballot
    exact ⟨drop m, by rw [hget, hm]; rfl⟩
  faithful {slot m} hm := by
    rw [hget] at hm
    cases hbefore : bank.get slot with
    | error e =>
      rw [hbefore] at hm
      exact absurd hm (by simp [Except.map])
    | ok before =>
      rw [hbefore] at hm
      obtain rfl := Except.ok.inj hm
      obtain ⟨ballot, hballot, hfaithful⟩ := h.faithful hbefore
      exact ⟨ballot, hballot, hfaithful.mono (hdrop before)⟩

theorem Coherent.keep (h : bank.Coherent registry clock v) (test : BlockId → Bool) :
    (bank.keep test).Coherent registry clock v :=
  h.map (get_keep bank test) fun _ _ _ => Memo.getElem?_of_keep

theorem Coherent.clear (h : bank.Coherent registry clock v) :
    bank.clear.Coherent registry clock v :=
  h.map (get_clear bank) fun _ _ _ hs => absurd hs (by simp [Memo.empty])

/-- History may grow. -/
theorem Coherent.grow (h : bank.Coherent registry clock v) {w : View} (hv : v.Climbs)
    (hw : w.Climbs) (hsub : ∀ id b, v.block? id = some b → w.block? id = some b) :
    bank.Coherent registry clock w where
  exists_memo := h.exists_memo
  faithful hm := by
    obtain ⟨ballot, hballot, hfaithful⟩ := h.faithful hm
    exact ⟨ballot, hballot, hfaithful.grow hv hw hsub⟩

end MemoBank
end SoftFork
