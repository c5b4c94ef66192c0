import Mathlib.Data.List.Induction
import SoftFork.Proofs.History.Store
import SoftFork.Proofs.History.Tip

/-!
# Headers and the numbers of their blocks

The wire form of a header puts its fields one behind the other, each in so many bytes as it always
has.  So the bytes can be cut apart again, and they determine every field except one: of the time,
which is kept in sixty-four bits, only the lower half is written (`Header.wire_eq_iff`).  Two
headers whose times fit have the same bytes only if they are the same (`Header.eq_of_wire`).

A tree knows its blocks by their hashes.  What the hash of a header says about the header rests on
two things, and only the first of them can be assumed: that different bytes have different hashes.
The second is that the bytes say everything, and for that the time has to be looked at before the
hash is (`exists_block_of_store`).  Then a hash that is found belongs to the very header that is
asked about, not only to one with the same hash, and the block under the number that is answered
has this header's version and time, whether it was stored now or long ago.
-/

namespace SoftFork

namespace Header

/-! ## The bytes of a header -/

theorem map_toNat_wordBytes (x : UInt32) : (wordBytes x).map UInt8.toNat =
    [x.toNat % 256, x.toNat / 256 % 256, x.toNat / 65536 % 256, x.toNat / 16777216 % 256] := by
  simp [wordBytes, Nat.shiftRight_eq_div_pow]

theorem wordBytes_inj {x y : UInt32} : wordBytes x = wordBytes y ↔ x = y := by
  refine ⟨fun h => ?_, fun h => h ▸ rfl⟩
  have hbytes := congrArg (List.map UInt8.toNat) h
  simp only [map_toNat_wordBytes, List.cons.injEq, and_true] at hbytes
  have hx := x.toNat_lt
  have hy := y.toNat_lt
  rw [← UInt32.toNat_inj]
  omega

/-- The wire form determines a header, up to the half of its time that is not written. -/
theorem wire_eq_iff {h h' : Header} :
    h.wire = h'.wire ↔ h' = { h with time := h'.time } ∧ h.time.toUInt32 = h'.time.toUInt32 := by
  constructor
  · intro hwire
    -- the fields have the same lengths in both headers, so they can be cut off one by one
    obtain ⟨hwire, hnonce⟩ := List.append_inj' hwire rfl
    obtain ⟨hwire, hbits⟩ := List.append_inj' hwire rfl
    obtain ⟨hwire, htime⟩ := List.append_inj' hwire rfl
    obtain ⟨hwire, hroot⟩ := List.append_inj' hwire (by simp)
    obtain ⟨hversion, hparent⟩ := List.append_inj' hwire (by simp)
    rw [wordBytes_inj] at hnonce hbits htime hversion
    rw [Vector.toList_inj] at hroot hparent
    obtain ⟨version, parent, root, time, bits, nonce⟩ := h
    obtain ⟨version', ⟨parent'⟩, root', time', bits', nonce'⟩ := h'
    cases hversion
    cases hparent
    cases hroot
    cases hbits
    cases hnonce
    exact ⟨rfl, htime⟩
  · rintro ⟨heq, htime⟩
    rw [heq]
    simp only [wire, htime]

theorem timeFits_iff {h : Header} : h.timeFits = true ↔ h.time.toNat < UInt32.size := by
  rw [timeFits, decide_eq_true_eq, UInt64.le_iff_toNat_le]
  exact Nat.lt_succ_iff.symm

/-- Headers whose times fit are determined by their wire forms. -/
theorem eq_of_wire {h h' : Header} (hfits : h.timeFits = true) (hfits' : h'.timeFits = true)
    (hwire : h.wire = h'.wire) : h = h' := by
  obtain ⟨heq, hlow⟩ := wire_eq_iff.mp hwire
  have htime : h'.time = h.time := by
    rw [timeFits_iff] at hfits hfits'
    rw [← UInt32.toNat_inj, UInt64.toNat_toUInt32, UInt64.toNat_toUInt32, Nat.mod_eq_of_lt hfits,
      Nat.mod_eq_of_lt hfits'] at hlow
    exact UInt64.toNat_inj.mp hlow.symm
  rw [heq, htime]

end Header

namespace BlockTree

/-! ## Blocks and their headers -/

/-- A block has the hash, the version and the time of a header. -/
structure Bears (digest : Header → BlockHash) (b : Block) (h : Header) : Prop where
  hash : b.hash = digest h
  version : b.version = h.version
  time : b.time = h.time.toNat

variable {digest : Header → BlockHash} {t : BlockTree} {act : Act} {h : Header}

theorem block?_setTip (ht : t.Sound) (id : BlockId) :
    (t.setTip id).2.block? = t.block? := by
  cases hb : t.block? id with
  | none => rw [setTip_of_unknown hb]
  | some b =>
    obtain ⟨_, t', hmoved, -, hblocks, -⟩ := setTip_moves ht hb
    rw [hmoved]
    exact hblocks

/-- What the routine stores bears the header that it was given. -/
theorem block?_store {parent : Option BlockId} {height : Nat} {id : BlockId} {b : Block}
    (hb : (t.store digest h parent height).2.block? id = some b) :
    t.block? id = some b ∨ h.timeFits = true ∧ Bears digest b h := by
  cases hfits : h.timeFits with
  | false =>
    rw [store, hfits] at hb
    exact Or.inl hb
  | true =>
    cases hfind : t.find? (digest h) with
    | some known =>
      rw [store_of_known hfits hfind] at hb
      exact Or.inl hb
    | none =>
      rw [store_of_new hfits hfind, block?_push] at hb
      split at hb
      · obtain rfl := Option.some.inj hb
        exact Or.inr ⟨rfl, rfl, rfl, rfl⟩
      · exact Or.inl hb

/-- A block that an act adds bears the header that the act was to store. -/
theorem block?_after (ht : t.Sound) {id : BlockId} {b : Block}
    (hb : (t.after digest act).block? id = some b) :
    t.block? id = some b ∨ ∃ h, act.header? = some h ∧ h.timeFits = true ∧ Bears digest b h := by
  cases hh : act.header? with
  | some h =>
    rw [after] at hb
    rcases attempt_eq_store ht digest hh with ⟨parent, height, hstore⟩ | ⟨-, -, horphan⟩
    · rw [hstore] at hb
      exact (block?_store hb).imp_right fun hnew => ⟨h, rfl, hnew⟩
    · rw [horphan] at hb
      exact Or.inl hb
  | none =>
    cases act with
    | setTip tip =>
      rw [after, attempt, block?_setTip ht] at hb
      exact Or.inl hb
    | genesis _ => exact absurd hh (by simp [Act.header?])
    | detached _ _ => exact absurd hh (by simp [Act.header?])
    | insert _ => exact absurd hh (by simp [Act.header?])

/-- The headers that some acts are to store. -/
def headers (acts : List Act) : List Header :=
  acts.filterMap Act.header?

/-- Every block bears one of the headers that were to be stored. -/
theorem exists_header (digest : Header → BlockHash) (acts : List Act) :
    ∀ {id : BlockId} {b : Block}, (grown digest acts).block? id = some b →
      ∃ h ∈ headers acts, h.timeFits = true ∧ Bears digest b h := by
  induction acts using List.reverseRecOn with
  | nil => exact fun hb => absurd hb (by simp [grown, block?, empty])
  | append_singleton acts act ih =>
    intro id b hb
    have hheaders : headers (acts ++ [act]) = headers acts ++ headers [act] :=
      List.filterMap_append
    rw [grown_concat] at hb
    rw [hheaders]
    rcases block?_after (sound_grown digest acts) hb with hold | ⟨h, hh, hnew⟩
    · obtain ⟨h, hmem, hbears⟩ := ih hold
      exact ⟨h, List.mem_append_left _ hmem, hbears⟩
    · have hmem : h ∈ [act].filterMap Act.header? :=
        List.mem_filterMap.mpr ⟨act, List.mem_singleton_self _, hh⟩
      exact ⟨h, List.mem_append_right _ hmem, hnew⟩

/-! ## Numbers that are answered -/

/-- Some time among the acts, one that was to store the header was answered with the number. -/
def Accepted (digest : Header → BlockHash) (acts : List Act) (h : Header) (id : BlockId) : Prop :=
  ∃ before act after, acts = before ++ act :: after ∧ act.header? = some h ∧
    ((grown digest before).attempt digest act).1 = .ok id

/-- The routine answers with the number of a block that has the hash of the header. -/
theorem exists_block_of_store (ht : t.Sound) {parent : Option BlockId} {height : Nat}
    {id : BlockId} (hstore : (t.store digest h parent height).1 = .ok id) :
    h.timeFits = true ∧
      ∃ b, (t.store digest h parent height).2.block? id = some b ∧ b.hash = digest h := by
  cases hfits : h.timeFits with
  | false =>
    rw [store, hfits] at hstore
    exact absurd hstore (by simp)
  | true =>
    refine ⟨rfl, ?_⟩
    cases hfind : t.find? (digest h) with
    | some known =>
      rw [store_of_known hfits hfind] at hstore ⊢
      obtain rfl := Except.ok.inj hstore
      exact ht.find.mp hfind
    | none =>
      rw [store_of_new hfits hfind] at hstore ⊢
      obtain rfl := Except.ok.inj hstore
      exact ⟨_, (block?_push t _ t.size).trans (if_pos rfl), rfl⟩

/-- A number that is answered goes on to stand for a block with the hash of the header. -/
theorem Accepted.exists_block {acts : List Act} {id : BlockId} (hid : Accepted digest acts h id) :
    h ∈ headers acts ∧ h.timeFits = true ∧
      ∃ b, (grown digest acts).block? id = some b ∧ b.hash = digest h := by
  obtain ⟨before, act, after, rfl, hh, hattempt⟩ := hid
  have ht := sound_grown digest before
  have hmem : h ∈ headers (before ++ act :: after) :=
    List.mem_filterMap.mpr ⟨act, List.mem_append_right _ List.mem_cons_self, hh⟩
  rcases attempt_eq_store ht digest hh with ⟨parent, height, hstore⟩ | ⟨-, -, horphan⟩
  · rw [hstore] at hattempt
    obtain ⟨hfits, b, hb, hhash⟩ := exists_block_of_store ht hattempt
    rw [← hstore, ← grown_concat] at hb
    refine ⟨hmem, hfits, b, ?_, hhash⟩
    rw [List.append_cons, grown, List.foldl_append]
    exact block?_foldl_after after (sound_grown digest _) hb
  · rw [horphan] at hattempt
    exact absurd hattempt (by simp)

/-- The bytes of a header determine it, up to the upper half of its time, and altogether when the
time has no upper half.  So let different bytes have different hashes, as far as the headers go that
some acts were to store, successfully or not.  A number that was answered for a header stands for a
block with the hash, the version and the time of this header; and two numbers that were answered are
the same exactly when it was for the same header. -/
theorem header_identity :
    (∀ h h' : Header, h.wire = h'.wire ↔
      h' = { h with time := h'.time } ∧ h.time.toUInt32 = h'.time.toUInt32) ∧
    (∀ h h' : Header, h.time.toNat < UInt32.size → h'.time.toNat < UInt32.size →
      h.wire = h'.wire → h = h') ∧
    ∀ (digest : Header → BlockHash) (acts : List Act),
      (∀ h ∈ headers acts, ∀ h' ∈ headers acts, digest h = digest h' → h.wire = h'.wire) →
      (∀ h id, Accepted digest acts h id → ∃ b, (grown digest acts).block? id = some b ∧
        b.hash = digest h ∧ b.version = h.version ∧ b.time = h.time.toNat) ∧
      ∀ h h' id id', Accepted digest acts h id → Accepted digest acts h' id' →
        (id = id' ↔ h = h') := by
  refine ⟨fun _ _ => Header.wire_eq_iff, fun h h' hlt hlt' => ?_, fun digest acts hcollision => ?_⟩
  · exact Header.eq_of_wire (Header.timeFits_iff.mpr hlt) (Header.timeFits_iff.mpr hlt')
  · have ht := sound_grown digest acts
    refine ⟨fun h id hid => ?_, fun h h' id id' hid hid' => ?_⟩
    · obtain ⟨hmem, hfits, b, hb, hhash⟩ := hid.exists_block
      obtain ⟨h', hmem', hfits', hbears⟩ := exists_header digest acts hb
      have hwire := hcollision h hmem h' hmem' (hhash.symm.trans hbears.hash)
      obtain rfl := Header.eq_of_wire hfits hfits' hwire
      exact ⟨b, hb, hhash, hbears.version, hbears.time⟩
    · obtain ⟨hmem, hfits, b, hb, hhash⟩ := hid.exists_block
      obtain ⟨hmem', hfits', b', hb', hhash'⟩ := hid'.exists_block
      constructor
      · rintro rfl
        obtain rfl := Option.some.inj (hb.symm.trans hb')
        exact Header.eq_of_wire hfits hfits' (hcollision h hmem h' hmem' (hhash.symm.trans hhash'))
      · rintro rfl
        have hfind := ht.find.mpr ⟨b, hb, hhash⟩
        exact Option.some.inj (hfind.symm.trans (ht.find.mpr ⟨b', hb', hhash'⟩))

/-- A header that differs from an early one in its last field. -/
def twin : Header :=
  { early with nonce := 2 }

/-- The early header is stored, then its twin at some height, and then the early one is given once
more, as the base of a history. -/
def repeatedActs : List Act :=
  [.genesis early, .detached twin 7, .detached early 3]

/-- With double SHA-256: the twin gets a number of its own, and every number that is answered for
the early header is that of the first block. -/
theorem header_identity_repeated :
    Accepted Header.hash repeatedActs twin 1 ∧
      (∃ b, (grown Header.hash repeatedActs).block? 1 = some b ∧ b.hash = twin.hash ∧
        b.version = 1 ∧ b.time = 10) ∧
      ∀ id, Accepted Header.hash repeatedActs early id → id = 0 := by
  have hhash : early.hash ≠ twin.hash := by decide +kernel
  have hcollision : ∀ h ∈ headers repeatedActs, ∀ h' ∈ headers repeatedActs,
      h.hash = h'.hash → h.wire = h'.wire := by
    have hheaders : headers repeatedActs = [early, twin, early] := rfl
    simp only [hheaders, List.mem_cons, List.not_mem_nil, or_false, forall_eq_or_imp, forall_eq]
    simp only [hhash, hhash.symm, false_implies, implies_true, and_self]
  obtain ⟨hbears, hsame⟩ := header_identity.2.2 Header.hash repeatedActs hcollision
  have hearly : Accepted Header.hash repeatedActs early 0 :=
    ⟨[], _, _, rfl, rfl, rfl⟩
  have htwin : Accepted Header.hash repeatedActs twin 1 := by
    have hfind : (grown Header.hash [.genesis early]).find? twin.hash = none := by
      have hstore : grown Header.hash [.genesis early] =
          (store .empty Header.hash early none 0).2 := rfl
      rw [hstore, store_of_new (by decide) rfl, find?_push, if_neg hhash]
      rfl
    have hnew : (grown Header.hash [.genesis early]).store Header.hash twin none 7 = _ :=
      store_of_new (by decide) hfind
    exact ⟨[.genesis early], .detached twin 7, _, rfl, rfl, congrArg Prod.fst hnew⟩
  exact ⟨htwin, hbears twin 1 htwin, fun id hid => (hsame early early id 0 hid hearly).mpr rfl⟩

end BlockTree
end SoftFork
