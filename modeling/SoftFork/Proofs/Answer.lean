import SoftFork.Fault

/-!
# Answers and refusals

A question about history has an answer, or it is refused because history is
missing.  Which height the refusal names depends on the way that was taken to
find out; that it is refused does not.

`Tells` compares a computation with what it ought to say, `none` standing for
missing history at whatever height.  It passes through `do` blocks step by step,
so a computation tells what a second one over `Option` says as soon as their
steps do.  `Alike` compares two computations in the same way: what tells one
thing is alike.

Where history has been cut off, questions are refused that have an answer.
`TellsAtMost` allows for that, and `Abridges` compares two computations in the same
way, one with less history than the other.
-/

namespace SoftFork

variable {α β : Type}

@[simp] theorem ok_bind (a : α) (f : α → Except Fault β) :
    ((.ok a : Except Fault α) >>= f) = f a := rfl

@[simp] theorem error_bind (e : Fault) (f : α → Except Fault β) :
    ((.error e : Except Fault α) >>= f) = .error e := rfl

@[simp] theorem pure_eq_ok (a : α) : (pure a : Except Fault α) = .ok a := rfl

theorem eq_ok_of_toOption {r : Except Fault α} {a : α} (h : r.toOption = some a) : r = .ok a := by
  cases r with
  | error e => exact absurd h (by simp [Except.toOption])
  | ok a' => exact congrArg Except.ok (Option.some.inj h)

/-- A loop that asks one question in every round.  Either all of them are answered, and the loop
is what is made of the answers, or the loop ends with the first refusal. -/
theorem foldlM_cases {γ : Type} (f : γ → Except Fault α) (g : β → γ → α → β) :
    ∀ (l : List γ) (b : β),
    ((∀ c ∈ l, ∃ a, f c = .ok a) ∧ l.foldlM (fun b c => f c >>= fun a => .ok (g b c a)) b =
      .ok (l.foldl (fun b c => (f c).toOption.elim b (g b c)) b)) ∨
    ∃ before c after e, l = before ++ c :: after ∧ (∀ c' ∈ before, ∃ a, f c' = .ok a) ∧
      f c = .error e ∧ l.foldlM (fun b c => f c >>= fun a => .ok (g b c a)) b = .error e
  | [], _ => Or.inl ⟨fun _ hc => absurd hc List.not_mem_nil, rfl⟩
  | c :: l, b => by
    cases hc : f c with
    | error e =>
      refine Or.inr ⟨[], c, l, e, rfl, fun _ hc' => absurd hc' List.not_mem_nil, hc, ?_⟩
      rw [List.foldlM_cons, hc]
      rfl
    | ok a =>
      have hfirst : ∀ l : List γ, (∀ c' ∈ l, ∃ a, f c' = .ok a) →
          ∀ c' ∈ c :: l, ∃ a, f c' = .ok a :=
        fun l hl => List.forall_mem_cons.mpr ⟨⟨a, hc⟩, hl⟩
      rw [List.foldlM_cons, List.foldl_cons, hc, ok_bind, ok_bind]
      rcases foldlM_cases f g l (g b c a) with
        ⟨hall, hloop⟩ | ⟨before, c', after, e, rfl, hbefore, hc', hloop⟩
      · exact Or.inl ⟨hfirst l hall, hloop⟩
      · exact Or.inr ⟨c :: before, c', after, e, rfl, hfirst before hbefore, hc', hloop⟩

/-- A loop that collects what passes a test, when all of its questions are answered. -/
theorem foldlM_filter {γ : Type} {f : γ → Except Fault α} {answer : γ → α} (test : α → Bool)
    (item : γ → α → β) : ∀ {l : List γ}, (∀ c ∈ l, f c = .ok (answer c)) → ∀ found : List β,
    l.foldlM (fun found c => f c >>= fun a =>
        .ok (if test a then found ++ [item c a] else found)) found =
      .ok (found ++ (l.filter fun c => test (answer c)).map fun c => item c (answer c))
  | [], _, found => by rw [List.filter_nil, List.map_nil, List.append_nil]; rfl
  | c :: l, hl, found => by
    rw [List.foldlM_cons, hl c List.mem_cons_self, ok_bind, ok_bind,
      foldlM_filter test item fun c' hc' => hl c' (List.mem_cons_of_mem c hc')]
    cases htest : test (answer c) with
    | true => simp only [List.filter_cons, htest, if_true, List.map_cons, List.append_assoc,
        List.singleton_append]
    | false => simp only [List.filter_cons, htest, Bool.false_eq_true, if_false]

/-- A loop that ends with a refusal at the first one that fails a test. -/
theorem foldlM_guarded {γ : Type} {f : β → γ → Except Fault β} {bad : γ → Bool}
    {fault : γ → Fault} {g : β → γ → β} : ∀ {l : List γ},
    (∀ c ∈ l, ∀ b, f b c = if bad c then .error (fault c) else .ok (g b c)) → ∀ b : β,
    l.foldlM f b = match l.find? bad with
      | some c => .error (fault c)
      | none => .ok (l.foldl g b)
  | [], _, _ => rfl
  | c :: l, hl, b => by
    rw [List.foldlM_cons, hl c List.mem_cons_self]
    cases hbad : bad c with
    | true => rw [List.find?_cons_of_pos hbad, if_pos rfl, error_bind]
    | false =>
      rw [List.find?_cons_of_neg (Bool.eq_false_iff.mp hbad), if_neg (by decide), ok_bind,
        List.foldl_cons, foldlM_guarded fun c' hc' => hl c' (List.mem_cons_of_mem c hc')]

/-- The computation returns the given value, or, without one, is refused for lack
of history. -/
def Tells (r : Except Fault α) : Option α → Prop
  | some a => r = .ok a
  | none => ∃ height, r = .error (.historyMissing height)

/-- Both computations return the same value, or both are refused for lack of
history. -/
def Alike (r r' : Except Fault α) : Prop :=
  (∃ a, r = .ok a ∧ r' = .ok a) ∨
    ∃ height height', r = .error (.historyMissing height) ∧ r' = .error (.historyMissing height')

/-- The computation tells that much, or is refused for lack of history although it need
not be. -/
def TellsAtMost (r : Except Fault α) (o : Option α) : Prop :=
  Tells r o ∨ Tells r none

/-- Both computations return the same value, or the first one is refused for lack of
history. -/
def Abridges (r r' : Except Fault α) : Prop :=
  (∃ a, r = .ok a ∧ r' = .ok a) ∨ ∃ height, r = .error (.historyMissing height)

namespace Tells

theorem of_ok (a : α) : Tells (.ok a) (some a) := rfl

theorem of_missing (height : Nat) : Tells (.error (.historyMissing height) : Except Fault α) none :=
  ⟨height, rfl⟩

/-- What a computation returns is what it ought to say. -/
theorem eq_some {r : Except Fault α} {o : Option α} {a : α} (h : Tells r o) (hr : r = .ok a) :
    o = some a := by
  subst hr
  cases o with
  | none =>
    obtain ⟨height, h⟩ := h
    exact absurd h (by simp)
  | some a' => rw [Except.ok.inj h]

/-- A sequence of steps tells what the steps tell. -/
theorem bind {r : Except Fault α} {o : Option α} {f : α → Except Fault β} {g : α → Option β}
    (h : Tells r o) (hstep : ∀ a, o = some a → Tells (f a) (g a)) : Tells (r >>= f) (o >>= g) := by
  cases o with
  | none =>
    obtain ⟨height, rfl⟩ := h
    exact ⟨height, rfl⟩
  | some a =>
    obtain rfl : r = .ok a := h
    exact hstep a rfl

/-- What has been told can be put into another form. -/
theorem map {r : Except Fault α} {o : Option α} (h : Tells r o) (f : α → β) :
    Tells (r >>= fun a => .ok (f a)) (o.map f) := by
  cases o with
  | none =>
    obtain ⟨height, rfl⟩ := h
    exact ⟨height, rfl⟩
  | some a =>
    obtain rfl : r = .ok a := h
    exact of_ok (f a)

/-- Two computations that tell the same are alike. -/
theorem alike {r r' : Except Fault α} {o : Option α} (h : Tells r o) (h' : Tells r' o) :
    Alike r r' := by
  cases o with
  | none =>
    obtain ⟨height, hr⟩ := h
    obtain ⟨height', hr'⟩ := h'
    exact Or.inr ⟨height, height', hr, hr'⟩
  | some a => exact Or.inl ⟨a, h, h'⟩

/-- A computation tells at most what there is more of. -/
theorem atMost {r : Except Fault α} {o o' : Option α} (h : Tells r o)
    (hmore : ∀ a, o = some a → o' = some a) : TellsAtMost r o' := by
  cases o with
  | none => exact Or.inr h
  | some a =>
    rw [hmore a rfl]
    exact Or.inl h

end Tells

namespace TellsAtMost

theorem of_ok (a : α) : TellsAtMost (.ok a) (some a) :=
  Or.inl rfl

theorem of_missing (height : Nat) (o : Option α) :
    TellsAtMost (.error (.historyMissing height)) o :=
  Or.inr ⟨height, rfl⟩

theorem eq_some {r : Except Fault α} {o : Option α} {a : α} (h : TellsAtMost r o)
    (hr : r = .ok a) : o = some a :=
  h.elim (fun h => h.eq_some hr) fun h => absurd (h.eq_some hr) (by simp)

/-- What is refused is refused for lack of history. -/
theorem missing {r : Except Fault α} {o : Option α} {e : Fault} (h : TellsAtMost r o)
    (hr : r = .error e) : ∃ height, e = .historyMissing height := by
  subst hr
  have hnone : Tells (.error e : Except Fault α) none := by
    rcases h with h | h
    · cases o with
      | none => exact h
      | some a => exact absurd h (by simp [Tells])
    · exact h
  obtain ⟨height, herror⟩ := hnone
  exact ⟨height, Except.error.inj herror⟩

/-- Less than what another computation tells is an abridgement of it. -/
theorem abridges {r r' : Except Fault α} {o : Option α} (h : TellsAtMost r o)
    (h' : Tells r' o) : Abridges r r' := by
  cases r with
  | error e =>
    obtain ⟨height, rfl⟩ := h.missing rfl
    exact Or.inr ⟨height, rfl⟩
  | ok a =>
    rw [h.eq_some rfl] at h'
    exact Or.inl ⟨a, rfl, h'⟩

end TellsAtMost
end SoftFork
