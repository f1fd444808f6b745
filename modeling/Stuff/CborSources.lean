import Stuff.CborCodec
import Stuff.ContainerStream
import Stuff.FileReader

/-!
# The same value from every source

On a source that simulates the feed, `read` returns what it returns on the feed. The
induction goes over the types; only an `std::optional` gives a byte back, right after
`get_type` has read it.
-/
namespace Stuff.Cbor
open MachineWords ByteOrder ByteSources ContainerStream FileReader

/-! ## The loop over the tags -/

theorem takes_readTypeInfo : Takes 1 (readTypeInfo feed) :=
  (takes_read 1).bind fun t => takes_pure (typeInfo (t.headD 0))

theorem takes_getUint (minorType : ℕ) : Takes 0 (getUint feed minorType) := by
  have hread : ∀ n, Takes 0 (readInteger feed n) := by
    intro n f x f' h
    have htakes := (takes_read n).bind (fun t => takes_pure (ofBigEndian t)) f x f' h
    omega
  unfold getUint
  split_ifs
  · exact takes_pure minorType
  · exact hread 1
  · exact hread 2
  · exact hread 4
  · exact hread 8
  · exact takes_throw 0 _

/-- More rounds than bytes change nothing. -/
theorem skipTags_enough {m n : ℕ} {f : Feed} (hm : f.rest.length < m) (hn : f.rest.length < n) :
    skipTags feed m f = skipTags feed n f := by
  induction m generalizing n f with
  | zero => omega
  | succ m ih =>
      obtain ⟨n, rfl⟩ : ∃ k, n = k + 1 := ⟨n - 1, by omega⟩
      unfold skipTags
      cases hinfo : readTypeInfo feed f with
      | error e => rw [bind_of_error hinfo, bind_of_error hinfo]
      | ok r =>
          have hbyte := takes_readTypeInfo f r.1 r.2 hinfo
          rw [bind_of_ok hinfo, bind_of_ok hinfo]
          split_ifs
          · cases huint : getUint feed r.1.minor r.2 with
            | error e => rw [bind_of_error huint, bind_of_error huint]
            | ok r' =>
                have hvalue := takes_getUint r.1.minor r.2 r'.1 r'.2 huint
                rw [bind_of_ok huint, bind_of_ok huint]
                exact ih (by omega) (by omega)
          · rfl

/-- `getType` is the loop: a tag is skipped, and it starts again. -/
theorem getType_loop (f : Feed) :
    getType feed f = (readTypeInfo feed >>= fun info =>
      if info.major = cborTag then getUint feed info.minor >>= fun _ => getType feed
      else pure info) f := by
  rw [getType, skipTags]
  cases hinfo : readTypeInfo feed f with
  | error e => rw [bind_of_error hinfo, bind_of_error hinfo]
  | ok r =>
      have hbyte := takes_readTypeInfo f r.1 r.2 hinfo
      rw [bind_of_ok hinfo, bind_of_ok hinfo]
      split_ifs
      · cases huint : getUint feed r.1.minor r.2 with
        | error e => rw [bind_of_error huint, bind_of_error huint]
        | ok r' =>
            have hvalue := takes_getUint r.1.minor r.2 r'.1 r'.2 huint
            rw [bind_of_ok huint, bind_of_ok huint]
            exact skipTags_enough (by change _ < f.rest.length; omega) (Nat.lt_succ_self _)
      · rfl

/-! ## Parsers that agree -/

/-- No read asks for more than `max` bytes. -/
structure Bounded (maxSize : Ty .type → ℕ) (max : ℕ) : Prop where
  head : 8 ≤ max
  string : maxSize .string ≤ max
  binary : ∀ s, maxSize (.binary s) * s.width.bytes ≤ max

section
variable {σ α β : Type} {I : Istream σ} {full : Prop} {max : ℕ} {R : Feed → σ → Prop}
variable (hsim : Simulates I full max R)

/-- Both parsers always agree, and nothing is known of the feed. -/
abbrev Same (full : Prop) (R : Feed → σ → Prop) (p : Parser Feed α) (q : Parser σ α) : Prop :=
  Agree full R (fun _ => True) p q (fun _ _ => True)

theorem Same.bind {p : Parser Feed α} {q : Parser σ α} {k : α → Parser Feed β}
    {k' : α → Parser σ β} (h : Same full R p q) (hk : ∀ a, Same full R (k a) (k' a)) :
    Same full R (p >>= k) (q >>= k') := Agree.bind h hk

/-- More is known of the feed before. -/
theorem Same.weaken {P : Feed → Prop} {p : Parser Feed α} {q : Parser σ α}
    (h : Same full R p q) : Agree full R P p q (fun _ _ => True) :=
  h.mono (fun _ _ => trivial) (fun _ _ h => h)

theorem same_pure (a : α) : Same full R (pure a : Parser Feed α) (pure a) :=
  agree_pure (Q := fun _ _ => True) a

theorem same_throw (e : String) : Same full R (throw e : Parser Feed α) (throw e) := agree_throw e

include hsim

theorem agree_readBytes {n : ℕ} (hpos : 0 < n) (hn : full → n ≤ max) :
    Agree full R (fun _ => True) (feed.read n) (I.read n) (fun _ f => f.last.isSome) :=
  (hsim.agree_read hn).mono (fun _ _ => .inl hpos) (fun _ _ h => h hpos)

theorem agree_readInteger {n : ℕ} (hpos : 0 < n) (hn : full → n ≤ max) :
    Agree full R (fun f => f.last.isSome) (readInteger feed n) (readInteger I n)
      (fun _ f => f.last.isSome) := by
  apply Agree.bind ((agree_readBytes hsim hpos hn).mono (fun _ _ => trivial) (fun _ _ h => h))
  exact fun t => agree_pure (Q := fun _ f => f.last.isSome = true) (ofBigEndian t)

theorem agree_getUint (hmax : full → 8 ≤ max) (minorType : ℕ) :
    Agree full R (fun f => f.last.isSome) (getUint feed minorType) (getUint I minorType)
      (fun _ f => f.last.isSome) := by
  unfold getUint
  split_ifs
  · exact agree_pure (Q := fun _ f => f.last.isSome = true) minorType
  · exact agree_readInteger hsim (by decide) fun h => (by decide : 1 ≤ 8).trans (hmax h)
  · exact agree_readInteger hsim (by decide) fun h => (by decide : 2 ≤ 8).trans (hmax h)
  · exact agree_readInteger hsim (by decide) fun h => (by decide : 4 ≤ 8).trans (hmax h)
  · exact agree_readInteger hsim (by decide) hmax
  · exact agree_throw _

/-- What follows the head of an item: the last byte of the head can be given back. -/
theorem agree_skipTags (hmax : full → 8 ≤ max) (n : ℕ) :
    Agree full R (fun _ => True) (skipTags feed n) (skipTags I n) (fun _ f => f.last.isSome) := by
  induction n with
  | zero => exact agree_throw _
  | succ n ih =>
      have hbyte := agree_readBytes hsim Nat.one_pos fun h => (by decide : 1 ≤ 8).trans (hmax h)
      have hinfo : Agree full R (fun _ => True) (readTypeInfo feed) (readTypeInfo I)
          (fun _ f => f.last.isSome) :=
        hbyte.bind fun t => agree_pure (Q := fun _ f => f.last.isSome = true) _
      apply hinfo.bind
      intro info
      split_ifs with htag
      · exact (agree_getUint hsim hmax info.minor).bind fun _ =>
          ih.mono (fun _ _ => trivial) fun _ _ h => h
      · exact agree_pure (Q := fun _ f => f.last.isSome = true) info

theorem agree_getType (hmax : full → 8 ≤ max) :
    Agree full R (fun _ => True) (getType feed) (getType I) (fun _ f => f.last.isSome) := by
  intro f s hR htrue
  have hleft : I.left s = feed.left f := hsim.left f s hR
  unfold getType
  rw [hleft]
  exact agree_skipTags hsim hmax _ f s hR htrue

theorem agree_ensureType (hmax : full → 8 ≤ max) (needType : ℕ) :
    Agree full R (fun _ => True) (ensureType feed needType) (ensureType I needType)
      (fun _ f => f.last.isSome) := by
  apply (agree_getType hsim hmax).bind
  intro t
  split_ifs
  · exact agree_throw _
  · exact agree_pure (Q := fun _ f => f.last.isSome = true) t.minor

theorem agree_readSize (hmax : full → 8 ≤ max) (needType : ℕ) :
    Agree full R (fun _ => True) (readSize feed needType) (readSize I needType)
      (fun _ f => f.last.isSome) :=
  (agree_ensureType hsim hmax needType).bind fun minorType => agree_getUint hsim hmax minorType

theorem same_readSize (hmax : full → 8 ≤ max) (needType : ℕ) :
    Same full R (readSize feed needType) (readSize I needType) :=
  (agree_readSize hsim hmax needType).mono (fun _ h => h) (fun _ _ _ => trivial)

theorem same_readScalar (hmax : full → 8 ≤ max) (s : Scalar) :
    Same full R (readScalar feed s) (readScalar I s) := by
  cases s with
  | unsigned w => exact (same_readSize hsim hmax cborUint).bind fun n => same_pure _
  | signed w =>
      apply (agree_getType hsim hmax).bind
      intro t
      split_ifs
      · exact (agree_getUint hsim hmax t.minor).bind fun n => (same_pure _).weaken
      · exact (agree_getUint hsim hmax t.minor).bind fun n => (same_pure _).weaken
      · exact (same_throw _).weaken

theorem same_readBool (hmax : full → 8 ≤ max) : Same full R (readBool feed) (readBool I) := by
  apply (agree_ensureType hsim hmax cborX).bind
  intro minorType
  split_ifs
  · exact (same_pure false).weaken
  · exact (same_pure true).weaken
  · exact (same_throw _).weaken

omit hsim in
/-- The rest is read when the new size is in the limit. -/
theorem agree_resize {P : Feed → Prop} {limit n : ℕ} {p : Parser Feed α} {q : Parser σ α}
    (h : n ≤ limit → Agree full R P p q (fun _ _ => True)) :
    Agree full R P (resize limit n >>= fun _ => p) (resize limit n >>= fun _ => q)
      (fun _ _ => True) := by
  by_cases hn : n ≤ limit
  · have hok : ∀ {τ : Type}, (resize limit n : Parser τ Unit) = pure () := fun {τ} => if_pos hn
    rw [hok, hok]
    exact (agree_pure (Q := fun _ => P) ()).bind fun _ => h hn
  · have herror : ∀ {τ : Type}, (resize limit n : Parser τ Unit) = throw "length_error" :=
      fun {τ} => if_neg hn
    rw [herror, herror]
    exact Agree.bind (Q := fun _ _ => False) (agree_throw _) fun _ _ _ _ => False.elim

theorem same_readString (hmax : full → 8 ≤ max) {limit : ℕ} (hlimit : full → limit ≤ max) :
    Same full R (readString feed limit) (readString I limit) := by
  apply (agree_readSize hsim hmax cborStr).bind
  intro len
  apply agree_resize
  intro hlen
  exact (hsim.agree_read fun h => hlen.trans (hlimit h)).mono (fun _ h => .inr h)
    fun _ _ _ => trivial

theorem same_readBinary (hmax : full → 8 ≤ max) {s : Scalar} {limit : ℕ}
    (hlimit : full → limit * s.width.bytes ≤ max) :
    Same full R (readBinary feed s limit) (readBinary I s limit) := by
  apply (same_readSize hsim hmax cborBinary).bind
  intro len
  split_ifs with hmod hpos
  · exact same_throw _
  · apply agree_resize
    intro hlen
    have hread : full → len ≤ max := by
      intro h
      have heq : len / s.width.bytes * s.width.bytes = len :=
        Nat.div_mul_cancel (Nat.dvd_of_mod_eq_zero (by omega))
      calc
        len = len / s.width.bytes * s.width.bytes := heq.symm
        _ ≤ limit * s.width.bytes := Nat.mul_le_mul_right _ hlen
        _ ≤ max := hlimit h
    exact (agree_readBytes hsim hpos hread).bind fun bs => (same_pure _).weaken
  · exact agree_resize fun _ => same_pure _

omit hsim in
theorem same_readN {p : Parser Feed α} {q : Parser σ α} (h : Same full R p q) (n : ℕ) :
    Same full R (readN p n) (readN q n) := by
  induction n with
  | zero => exact same_pure []
  | succ n ih => exact h.bind fun x => ih.bind fun l => same_pure (x :: l)

omit hsim in
theorem same_readEntries {less : α → α → Bool} {pk : Parser Feed α} {qk : Parser σ α}
    {pv : Parser Feed β} {qv : Parser σ β} (hk : Same full R pk qk) (hv : Same full R pv qv)
    (n : ℕ) (m : List (α × β)) :
    Same full R (readEntries less pk pv n m) (readEntries less qk qv n m) := by
  induction n generalizing m with
  | zero => exact same_pure m
  | succ n ih => exact hk.bind fun k => hv.bind fun v => ih _

omit hsim in
theorem same_count {p : Parser Feed α} {q : Parser σ α} (h : Same full R p q) (m n : ℕ)
    (e : String) :
    Same full R (if m ≠ n then throw e else p) (if m ≠ n then throw e else q) := by
  split_ifs
  · exact same_throw e
  · exact h

theorem same_readOptional (hmax : full → 8 ≤ max) {p : Parser Feed α} {q : Parser σ α}
    (h : Same full R p q) :
    Same full R
      (getType feed >>= fun info =>
        if info.major = cborX ∧ info.minor = cborNull then pure none
        else feed.unget >>= fun _ => p >>= fun v => pure (some v))
      (getType I >>= fun info =>
        if info.major = cborX ∧ info.minor = cborNull then pure none
        else I.unget >>= fun _ => q >>= fun v => pure (some v)) := by
  apply (agree_getType hsim hmax).bind
  intro info
  split_ifs
  · exact (same_pure none).mono (fun _ _ => trivial) (fun _ _ h => h)
  · exact hsim.agree_unget.bind fun _ => h.bind fun v => same_pure (some v)

/-- Every type. -/
theorem same_read (maxSize : Ty .type → ℕ) (hmax : full → Bounded maxSize max) {k : Kind}
    (t : Ty k) : Same full R (read feed maxSize t) (read I maxSize t) := by
  have hhead : full → 8 ≤ max := fun h => (hmax h).head
  induction t with
  | scalar s => exact same_readScalar hsim hhead s
  | bool => exact same_readBool hsim hhead
  | string => exact same_readString hsim hhead fun h => (hmax h).string
  | list t ih => exact (same_readSize hsim hhead cborList).bind fun mt => same_readN ih mt
  | binary s => exact same_readBinary hsim hhead fun h => (hmax h).binary s
  | vector t ih =>
      apply (same_readSize hsim hhead cborList).bind
      intro mt
      exact agree_resize fun _ => same_readN ih mt
  | map k v ihk ihv =>
      exact (same_readSize hsim hhead cborMap).bind fun mt => same_readEntries ihk ihv mt []
  | optional t ih => exact same_readOptional hsim hhead ih
  | tuple ts ih =>
      apply (same_readSize hsim hhead cborList).bind
      intro sCount
      exact same_count ih sCount ts.size _
  | nil => exact same_pure ()
  | cons t ts iht ihts => exact iht.bind fun x => ihts.bind fun xs => same_pure (x, xs)

end

/-! ## The stream in memory -/

/-- An `imemstream` as a source. -/
def imemstream : Istream Imemstream where
  read n := fun s => s.substring n
  unget := fun s => s.unget.map fun s => ((), s)
  left s := s.data.length - s.offset

/-- The offset is where the rest of the buffer starts. -/
structure InMemory (buffer : Bytes) (f : Feed) (s : Imemstream) : Prop where
  data : s.data = buffer
  parts : ∃ front, f.PartOf buffer front ∧ s.offset = front.length

/-- Without a sum of an offset and a size that wraps, the stream follows the feed. -/
theorem imemstream_simulates {buffer : Bytes} (hbuffer : buffer.length < 2 ^ 64) (full : Prop)
    (max : ℕ) (hmax : full → buffer.length + max < 2 ^ 64) :
    Simulates imemstream full max (InMemory buffer) where
  read n f s h _ hn := by
    obtain ⟨hdata, front, hpart, hoffset⟩ := h
    have hlen := hpart.length
    have hdrop : s.data.drop s.offset = f.rest := by
      rw [hdata, hpart.1, hoffset, List.drop_left]
    have hok : imemstream.read n s = .ok (f.rest.take n, { s with offset := s.offset + n }) := by
      have hsub := Imemstream.substring_of_le (s := s) (n := n) (by rw [hdata]; omega)
        (by rw [hdata]; exact hbuffer)
      rw [hdrop] at hsub
      exact hsub
    refine ⟨_, hok, hdata, _, hpart.read n, ?_⟩
    rw [List.length_append, List.length_take, Nat.min_eq_left hn, hoffset]
  short hfull n f s h hn hshort := by
    obtain ⟨hdata, front, hpart, hoffset⟩ := h
    have hlen := hpart.length
    have hbound := hmax hfull
    exact ⟨_, Imemstream.substring_of_lt (by rw [hdata]; omega) (by omega)⟩
  unget f s b h hb := by
    obtain ⟨hdata, front, hpart, hoffset⟩ := h
    obtain ⟨front, rfl, hunget⟩ := hpart.unget hb
    rw [List.length_append, List.length_singleton] at hoffset
    have hok : imemstream.unget s = .ok ((), { s with offset := front.length }) := by
      have hne : s.offset ≠ 0 := by omega
      have hpred : s.offset - 1 = front.length := by omega
      simp only [imemstream, Imemstream.unget, if_neg hne, hpred]
      rfl
    exact ⟨_, hok, hdata, front, hunget, rfl⟩
  left f s h := by
    obtain ⟨hdata, front, hpart, hoffset⟩ := h
    change s.data.length - s.offset = _
    rw [hdata, hpart.length, hoffset, Nat.add_sub_cancel_left]

theorem InMemory.start (buffer : Bytes) :
    InMemory buffer { rest := buffer } { data := buffer } := by
  refine ⟨rfl, [], ⟨rfl, ?_⟩, rfl⟩
  intro b hb
  cases hb

/-! ## From memory, and through a buffer -/

/-- The same value and the same bytes still to come, or no value. -/
def SameOutcome {α : Type} :
    Except String (α × Imemstream) → Except String (α × ExactReader) → Prop
  | .ok (v, s), .ok (v', s') =>
      v = v' ∧ s.offset ≤ s.data.length ∧ s'.pending = s.data.drop s.offset
  | .error _, .error _ => True
  | _, _ => False

theorem Follows.start {reader : Reader} (hreader : reader.isEof = true → reader.data = [])
    {size : ℕ} (hsize : 0 < size) (before : UInt8) :
    Follows reader.data { rest := reader.data }
      { parent := { reader := reader, size := size }, before := before } := by
  refine ⟨⟨hsize, hreader⟩, rfl, fun _ => rfl, ?_, [], rfl, ?_⟩
  · intro b hb
    cases hb
  · intro b hb
    cases hb

/-- Through an `ExactReader`, on a buffer of any size and on a reader with any short
reads, `read` gives what it gives from memory. The strings and vectors of the standard
library have less than `2 ^ 63` bytes. -/
theorem cbor_read_exactReader {maxSize : Ty .type → ℕ} (hmax : Bounded maxSize (2 ^ 63 - 1))
    (t : Ty .type) {reader : Reader} (hreader : reader.isEof = true → reader.data = [])
    (hbytes : reader.data.length ≤ maxSize .string) {size : ℕ} (hsize : 0 < size)
    (before : UInt8) :
    SameOutcome (read imemstream maxSize t { data := reader.data })
      (read exactReader maxSize t
        { parent := { reader := reader, size := size }, before := before }) := by
  have hlen : reader.data.length < 2 ^ 63 := by
    have hstring := hmax.string
    omega
  have hlen' : reader.data.length < 2 ^ 64 := by omega
  have hmem := same_read (imemstream_simulates hlen' True (2 ^ 63 - 1) fun _ => by omega)
    maxSize (fun _ => hmax) t _ _ (InMemory.start reader.data) trivial
  have hexact := same_read (exactReader_simulates hlen' True (2 ^ 63 - 1) (by decide))
    maxSize (fun _ => hmax) t _ _ (Follows.start hreader hsize before) trivial
  -- what the feed gives decides both
  cases hfeed : read feed maxSize t { rest := reader.data } with
  | error e =>
      simp only [hfeed] at hmem hexact
      obtain ⟨e₁, h₁⟩ := hmem trivial
      obtain ⟨e₂, h₂⟩ := hexact trivial
      rw [h₁, h₂]
      trivial
  | ok r =>
      obtain ⟨v, f⟩ := r
      simp only [hfeed] at hmem hexact
      obtain ⟨-, s₁, h₁, hdata, front, hpart, hoffset⟩ := hmem
      obtain ⟨-, s₂, h₂, hfollows⟩ := hexact
      rw [h₁, h₂]
      refine ⟨rfl, ?_, ?_⟩
      · rw [hdata, hoffset, hpart.length]
        omega
      · rw [hdata, hoffset, ← hfollows.rest]
        conv_rhs => rw [hpart.1, List.drop_left]

/-- Two tags, a string of one byte in an `std::optional`, and a byte that stays; the reader
gives two bytes, one, and then as many as fit into a buffer of three. -/
def taggedReader : Reader := { data := [193, 217, 1, 0, 97, 120, 255], sizes := [1, 0] }

theorem cbor_read_exactReader_tagged :
    SameOutcome (read imemstream (fun _ => 1000) (.optional .string) { data := taggedReader.data })
      (read exactReader (fun _ => 1000) (.optional .string)
        { parent := { reader := taggedReader, size := 3 } }) ∧
    ∃ s, read imemstream (fun _ => 1000) (.optional .string) { data := taggedReader.data } =
      .ok ((some [120] : Option Bytes), s) := by
  refine ⟨cbor_read_exactReader ⟨by decide, by decide, fun s => ?_⟩ (.optional .string)
    (by decide) (by decide) (by decide) 0, _, rfl⟩
  cases s with
  | unsigned w => cases w <;> decide
  | signed w => cases w <;> decide

end Stuff.Cbor
