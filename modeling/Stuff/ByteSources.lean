import Stuff.MachineWords

/-!
# Sources of bytes that take one byte back

A parser reads a source in pieces of a size that it asks for, and may give the last
byte that it read back. The `feed` is the source that has no other state than this:
the bytes to come, and the byte that can be given back. A source simulates it, so
what a parser does on the feed it does on every source. What a source does on a read
that is larger than all that it will ever deliver, or on a byte that was not read, may
matter or not; `full` says that it does.
-/
namespace Stuff.ByteSources
open MachineWords

abbrev Parser (σ α : Type) := StateT σ (Except String) α

/-- The bytes that are still to come bound the loops of a parser. -/
structure Istream (σ : Type) where
  read : ℕ → Parser σ Bytes
  unget : Parser σ Unit
  left : σ → ℕ

structure Feed where
  rest : Bytes
  last : Option UInt8 := none

def feed : Istream Feed where
  read n := fun f =>
    if n ≤ f.rest.length then
      .ok (f.rest.take n, { rest := f.rest.drop n, last := (f.rest.take n).getLast? })
    else .error "end of the feed"
  unget := fun f =>
    match f.last with
    | some b => .ok ((), { rest := b :: f.rest })
    | none => .error "nothing to give back"
  left f := f.rest.length

/-- What the feed has is the rest of `bytes`, and the byte to give back is the one before. -/
def Feed.PartOf (f : Feed) (bytes front : Bytes) : Prop :=
  bytes = front ++ f.rest ∧ ∀ b, f.last = some b → front.getLast? = some b

theorem Feed.PartOf.read {f : Feed} {bytes front : Bytes} (h : f.PartOf bytes front) (n : ℕ) :
    Feed.PartOf { rest := f.rest.drop n, last := (f.rest.take n).getLast? } bytes
      (front ++ f.rest.take n) := by
  constructor
  · rw [List.append_assoc, List.take_append_drop, h.1]
  · intro b hb
    simp only at hb
    rw [List.getLast?_append, hb, Option.some_or]

theorem Feed.PartOf.unget {f : Feed} {bytes front : Bytes} (h : f.PartOf bytes front) {b : UInt8}
    (hb : f.last = some b) :
    ∃ front', front = front' ++ [b] ∧ Feed.PartOf { rest := b :: f.rest } bytes front' := by
  obtain ⟨front, rfl⟩ := List.getLast?_eq_some_iff.mp (h.2 b hb)
  refine ⟨front, rfl, ?_, ?_⟩
  · rw [h.1, List.append_assoc, List.singleton_append]
  · intro b hb
    cases hb

theorem Feed.PartOf.length {f : Feed} {bytes front : Bytes} (h : f.PartOf bytes front) :
    bytes.length = front.length + f.rest.length := by
  rw [h.1, List.length_append]

/-- The source `I` follows the feed through related states. No read is made of more than
`max` bytes, or of no byte when one was given back. -/
structure Simulates {σ : Type} (I : Istream σ) (full : Prop) (max : ℕ) (R : Feed → σ → Prop) :
    Prop where
  read : ∀ n f s, R f s → (0 < n ∨ f.last.isSome) → n ≤ f.rest.length →
    ∃ s', I.read n s = .ok (f.rest.take n, s') ∧
      R { rest := f.rest.drop n, last := (f.rest.take n).getLast? } s'
  short : full → ∀ n f s, R f s → n ≤ max → f.rest.length < n → ∃ e, I.read n s = .error e
  unget : ∀ f s b, R f s → f.last = some b →
    ∃ s', I.unget s = .ok ((), s') ∧ R { rest := b :: f.rest } s'
  left : ∀ f s, R f s → I.left s = f.rest.length

section
variable {σ α β : Type} {full : Prop} {R : Feed → σ → Prop}

/-- From related states, the first of which satisfies `P`, both parsers return the same
value in related states, or both fail. -/
def Agree (full : Prop) (R : Feed → σ → Prop) (P : Feed → Prop) (p : Parser Feed α)
    (q : Parser σ α) (Q : α → Feed → Prop) : Prop :=
  ∀ f s, R f s → P f →
    match p f with
    | .ok (a, f') => Q a f' ∧ ∃ s', q s = .ok (a, s') ∧ R f' s'
    | .error _ => full → ∃ e, q s = .error e

theorem bind_of_ok {p : Parser σ α} {s s' : σ} {a : α} (h : p s = .ok (a, s'))
    (k : α → Parser σ β) : (p >>= k) s = k a s' := by
  change Except.bind (p s) _ = _
  rw [h]
  rfl

theorem bind_of_error {p : Parser σ α} {s : σ} {e : String} (h : p s = .error e)
    (k : α → Parser σ β) : (p >>= k) s = .error e := by
  change Except.bind (p s) _ = _
  rw [h]
  rfl

/-- The parser takes `n` bytes of the feed at least. -/
def Takes (n : ℕ) (p : Parser Feed α) : Prop :=
  ∀ f a f', p f = .ok (a, f') → f'.rest.length + n ≤ f.rest.length

theorem takes_read (n : ℕ) : Takes n (feed.read n) := by
  intro f bs f' hread
  change (if n ≤ f.rest.length then _ else _) = _ at hread
  split at hread
  case isTrue hn =>
    cases hread
    simp only [List.length_drop]
    omega
  case isFalse => cases hread

theorem takes_pure (a : α) : Takes 0 (pure a : Parser Feed α) := by
  intro f b f' hpure
  cases hpure
  exact le_rfl

theorem takes_throw (n : ℕ) (e : String) : Takes n (throw e : Parser Feed α) := by
  intro f b f' hthrow
  cases hthrow

theorem Takes.bind {n : ℕ} {p : Parser Feed α} {k : α → Parser Feed β} (h : Takes n p)
    (hk : ∀ a, Takes 0 (k a)) : Takes n (p >>= k) := by
  intro f b f' hbind
  cases hp : p f with
  | error e =>
      rw [bind_of_error hp] at hbind
      cases hbind
  | ok r =>
      rw [bind_of_ok hp] at hbind
      have hfirst := h f r.1 r.2 hp
      have hnext := hk r.1 r.2 b f' hbind
      omega

theorem Agree.bind {P : Feed → Prop} {p : Parser Feed α} {q : Parser σ α}
    {Q : α → Feed → Prop} {k : α → Parser Feed β} {k' : α → Parser σ β} {Q' : β → Feed → Prop}
    (h : Agree full R P p q Q) (hk : ∀ a, Agree full R (Q a) (k a) (k' a) Q') :
    Agree full R P (p >>= k) (q >>= k') Q' := by
  intro f s hR hP
  have hfirst := h f s hR hP
  cases hp : p f with
  | error e =>
      simp only [hp] at hfirst
      rw [bind_of_error hp]
      intro hfull
      obtain ⟨e', he'⟩ := hfirst hfull
      exact ⟨e', bind_of_error he' k'⟩
  | ok r =>
      obtain ⟨a, f'⟩ := r
      simp only [hp] at hfirst
      obtain ⟨hQ, s', hs', hR'⟩ := hfirst
      rw [bind_of_ok hp, bind_of_ok hs']
      exact hk a f' s' hR' hQ

theorem agree_pure {Q : α → Feed → Prop} (a : α) :
    Agree full R (Q a) (pure a : Parser Feed α) (pure a : Parser σ α) Q :=
  fun _ s hR hP => ⟨hP, s, rfl, hR⟩

theorem agree_throw {P : Feed → Prop} {Q : α → Feed → Prop} (e : String) :
    Agree full R P (throw e : Parser Feed α) (throw e : Parser σ α) Q :=
  fun _ _ _ _ _ => ⟨e, rfl⟩

theorem Agree.mono {P P' : Feed → Prop} {p : Parser Feed α} {q : Parser σ α}
    {Q Q' : α → Feed → Prop} (h : Agree full R P p q Q) (hP : ∀ f, P' f → P f)
    (hQ : ∀ a f, Q a f → Q' a f) : Agree full R P' p q Q' := by
  intro f s hR hP'
  have hf := h f s hR (hP f hP')
  cases hp : p f with
  | error e =>
      simp only [hp] at hf ⊢
      exact hf
  | ok r =>
      simp only [hp] at hf ⊢
      exact ⟨hQ _ _ hf.1, hf.2⟩

variable {I : Istream σ} {max : ℕ}

/-- After a read of at least one byte there is a byte to give back. -/
theorem Simulates.agree_read (h : Simulates I full max R) {n : ℕ} (hn : full → n ≤ max) :
    Agree full R (fun f => 0 < n ∨ f.last.isSome) (feed.read n) (I.read n)
      (fun _ f => 0 < n → f.last.isSome) := by
  intro f s hR hlast
  by_cases hle : n ≤ f.rest.length
  · have hread : feed.read n f =
        .ok (f.rest.take n, { rest := f.rest.drop n, last := (f.rest.take n).getLast? }) :=
      if_pos hle
    rw [hread]
    refine ⟨?_, h.read n f s hR hlast hle⟩
    intro hpos
    rw [List.getLast?_isSome, ne_eq, List.take_eq_nil_iff]
    rintro (hzero | hnil)
    · omega
    · rw [hnil, List.length_nil] at hle
      omega
  · have hread : feed.read n f = .error "end of the feed" := if_neg hle
    rw [hread]
    intro hfull
    exact h.short hfull n f s hR (hn hfull) (by omega)

theorem Simulates.agree_unget (h : Simulates I full max R) :
    Agree full R (fun f => f.last.isSome) feed.unget I.unget (fun _ _ => True) := by
  intro f s hR hlast
  obtain ⟨b, hb⟩ := Option.isSome_iff_exists.mp hlast
  have hunget : feed.unget f = .ok ((), { rest := b :: f.rest }) := by
    simp only [feed, hb]
  rw [hunget]
  exact ⟨trivial, h.unget f s b hR hb⟩

end

end Stuff.ByteSources
