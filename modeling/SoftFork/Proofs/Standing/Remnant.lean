import SoftFork.Proofs.Standing.OnPast

/-!
# Histories that have been cut off

A store need not keep the history of a block down to genesis.  What it keeps of the past
is a `Remnant`: the blocks from some height on.

Heights are kept with the blocks.  So a remnant knows where it belongs: it goes on at
the height at which the past goes on, and it goes down to genesis only if nothing has
been cut off (`Remnant.eq_of_base`).  That is why a reader who has come to the end
of what is stored can tell whether it is the end of everything.

Each of the readings of a past says `none` when history does not suffice.  On a
remnant it may say so more often, and that is all: where it says something, it says
the same on the whole past.  Nothing is asked about the place of the cut, which may lie
within a period, within the window of a median, or below a closing block.
-/

namespace SoftFork

/-- The latest times alone have the median of all. -/
theorem MedianTime.median_append {times : List Nat} (older : List Nat)
    (h : span ≤ times.length) : median (older ++ times) = median times := by
  have hrecent : recent (older ++ times) = recent times := by
    rw [recent, recent, List.length_append, List.drop_append,
      List.drop_eq_nil_of_le (by omega), List.nil_append]
    congr 1
    omega
  rw [median, median, hrecent]

namespace Past

/-- What is left of a past that goes down to genesis when its oldest blocks have been cut
off. -/
structure Remnant (part whole : Past) : Prop where
  ne_nil : part ≠ []
  consecutive : whole.Consecutive
  rooted : whole.Rooted
  suffix : part <:+ whole

namespace Remnant

variable {part whole : Past} {clock : Clock} {ballot : Ballot}

/-! ## Where a remnant belongs -/

/-- The oldest block of a remnant stands as high as blocks have been cut off. -/
theorem base_add_length (h : Remnant part whole) : base part + part.length = whole.length := by
  obtain ⟨hne, hcon, ⟨hbase, hlen⟩, older, rfl⟩ := h
  obtain ⟨b, rest, rfl⟩ := List.exists_cons_of_ne_nil hne
  have hheight := hcon older.length (by simp)
  rw [List.getElem_append_right (Nat.le_refl _), hbase] at hheight
  simp only [Nat.sub_self, List.getElem_cons_zero] at hheight
  rw [List.length_append, UInt64.size] at hlen
  rw [List.length_append]
  rw [UInt64.size] at hheight
  show b.height + _ = _
  omega

/-- A remnant goes on where the past goes on. -/
theorem next_eq (h : Remnant part whole) : next part = next whole := by
  rw [next, next, h.base_add_length, h.rooted.1, Nat.zero_add]

theorem length_le (h : Remnant part whole) : part.length ≤ whole.length :=
  h.suffix.length_le

/-- When a remnant goes down to genesis, nothing has been cut off. -/
theorem eq_of_base (h : Remnant part whole) (hbase : base part = 0) : part = whole := by
  have hlen := h.base_add_length
  rw [hbase, Nat.zero_add] at hlen
  exact h.suffix.eq_of_length hlen

/-! ## Readings -/

theorem legible_whole (h : Remnant part whole) (hleg : Legible part clock) :
    Legible whole clock := by
  cases clock with
  | blockTime => exact trivial
  | medianTimePast =>
    rcases hleg with hlen | hbase
    · exact Or.inl (Nat.le_trans hlen h.length_le)
    · exact Or.inr (h.eq_of_base hbase ▸ hbase)

theorem clockTime_eq (h : Remnant part whole) (hleg : Legible part clock) :
    clockTime part clock = clockTime whole clock := by
  have hne := h.ne_nil
  cases clock with
  | blockTime =>
    obtain ⟨older, rfl⟩ := h.suffix
    have htimes : times part ≠ [] := by rwa [times, ne_eq, List.map_eq_nil_iff]
    rw [clockTime, clockTime, times_append, List.getLastD_eq_getLast?, List.getLastD_eq_getLast?,
      List.getLast?_append, List.getLast?_eq_some_getLast htimes, Option.some_or]
  | medianTimePast =>
    rcases hleg with hlen | hbase
    · obtain ⟨older, rfl⟩ := h.suffix
      rw [clockTime, clockTime, times_append, MedianTime.median_append]
      rwa [times, List.length_map]
    · rw [h.eq_of_base hbase]

theorem clockTime?_eq_some (h : Remnant part whole) {time : Nat}
    (htime : clockTime? part clock = some time) : clockTime? whole clock = some time := by
  rw [clockTime?] at htime ⊢
  split at htime
  · next hleg => rw [if_pos (h.legible_whole hleg), ← h.clockTime_eq hleg, htime]
  · exact absurd htime (by simp)

theorem countVotes_eq (h : Remnant part whole) (votes : Block → Bool) {blocks : Nat}
    (hle : blocks ≤ part.length) :
    countVotes part votes blocks = countVotes whole votes blocks := by
  obtain ⟨older, rfl⟩ := h.suffix
  rw [countVotes, countVotes, List.length_append, Nat.add_sub_assoc hle,
    List.drop_length_add_append]

theorem tally?_eq_some (h : Remnant part whole) {tally : Tally}
    (htally : tally? part ballot = some tally) : tally? whole ballot = some tally := by
  rw [tally?, countVotes?] at htally ⊢
  rw [h.next_eq] at htally
  split at htally
  · next hle =>
    rw [if_pos (Nat.le_trans hle h.length_le), ← h.countVotes_eq _ hle, htally]
  · exact absurd htally (by simp)

/-! ## Rules -/

theorem isQuiet?_eq_some (h : Remnant part whole) {quiet : Bool}
    (hquiet : isQuiet? part clock ballot = some quiet) :
    isQuiet? whole clock ballot = some quiet := by
  rw [isQuiet?] at hquiet ⊢
  split at hquiet
  · next hmono =>
    obtain ⟨time, htime, rfl⟩ := Option.map_eq_some_iff.mp hquiet
    rw [if_pos hmono, h.clockTime?_eq_some htime, Option.map_some]
  · next hmono => rw [if_neg hmono, hquiet]

theorem suffices_whole (h : Remnant part whole) {phase : Phase}
    (hsuffices : Suffices part clock ballot phase) : Suffices whole clock ballot phase := by
  cases phase with
  | defined => exact h.legible_whole hsuffices
  | started =>
    refine ⟨h.legible_whole hsuffices.1, hsuffices.2.imp (fun htime => ?_) fun hlen => ?_⟩
    · rwa [← h.clockTime_eq hsuffices.1]
    · exact Nat.le_trans hlen h.length_le
  | lockedIn => exact trivial
  | active => exact trivial
  | failed => exact trivial

theorem nextPhase_eq (h : Remnant part whole) {phase : Phase}
    (hsuffices : Suffices part clock ballot phase) :
    nextPhase part clock ballot phase = nextPhase whole clock ballot phase := by
  cases phase with
  | defined =>
    have hleg : Legible part clock := hsuffices
    rw [nextPhase, nextPhase, h.clockTime_eq hleg]
  | started =>
    have htime := h.clockTime_eq hsuffices.1
    rw [nextPhase, nextPhase, htime]
    rcases hsuffices.2 with htimeout | hlen
    · rw [htime] at htimeout
      rw [if_pos htimeout, if_pos htimeout]
    · rw [h.countVotes_eq _ hlen]
  | lockedIn => rw [nextPhase, nextPhase, h.next_eq]
  | active => rfl
  | failed => rfl

theorem nextStanding?_eq_some (h : Remnant part whole) {s s' : Standing}
    (hnext : nextStanding? part clock ballot s = some s') :
    nextStanding? whole clock ballot s = some s' := by
  rw [nextStanding?] at hnext ⊢
  split at hnext
  · next hsuffices =>
    rw [if_pos (h.suffices_whole hsuffices), nextStanding, ← h.nextPhase_eq hsuffices, ← h.next_eq]
    exact hnext
  · exact absurd hnext (by simp)

end Remnant
end Past
end SoftFork
