import Stuff.ByteSources

/-!
# Reading through a buffer, and exactly

`File::BufReader` has a buffer between its caller and a reader that gives what it likes,
and `File::ExactReader` reads as much as it is asked for or throws. It can give the last
byte back, which it has kept, and does not move in the buffer for this.
-/
namespace Stuff.FileReader
open MachineWords ByteSources

/-- A reader below: the bytes that it has still to give, and the sizes of its next reads,
each less one. It knows its end with the last byte when it is `eager`, and by an empty
read otherwise, as a file does. -/
structure Reader where
  data : Bytes
  sizes : List ℕ := []
  eager : Bool := false
  isEof : Bool := false

def Reader.read (r : Reader) (aSize : ℕ) : Bytes × Reader :=
  let n := min aSize (r.sizes.head?.elim aSize Nat.succ)
  (r.data.take n,
    { r with
      data := r.data.drop n
      sizes := r.sizes.tail
      isEof := r.isEof || (r.data.take n).isEmpty || (r.eager && (r.data.drop n).isEmpty) })

/-- The bytes of `m_Buffer` up to `m_End`; `size` is the size of all of it. -/
structure BufReader where
  reader : Reader
  size : ℕ
  buffer : Bytes := []
  pos : ℕ := 0

namespace BufReader

def avail (b : BufReader) : ℕ := b.buffer.length - b.pos

def eof (b : BufReader) : Bool := b.avail = 0 && b.reader.isEof

def refill (b : BufReader) : BufReader :=
  { b with reader := (b.reader.read b.size).2, buffer := (b.reader.read b.size).1, pos := 0 }

/-- The loop of `read`, that needs `aLen` more bytes. A round that is not the last one
has copied a byte at least. -/
def fill : ℕ → ℕ → BufReader → Bytes × BufReader
  | 0, _, b => ([], b)
  | fuel + 1, aLen, b =>
      if aLen = 0 then ([], b)
      else
        let b := if b.avail = 0 then b.refill else b
        let sMinSize := min aLen b.avail
        let chunk := (b.buffer.drop b.pos).take sMinSize
        let b := { b with pos := b.pos + sMinSize }
        if b.eof then (chunk, b)
        else
          let r := fill fuel (aLen - sMinSize) b
          (chunk ++ r.1, r.2)

def read (b : BufReader) (aLen : ℕ) : Bytes × BufReader :=
  if b.eof then ([], b) else fill aLen aLen b

/-- A buffer of size `aLen` over a reader that is at its start. -/
def construct (content : Bytes) (sizes : List ℕ) (eager : Bool) (aLen : ℕ) : BufReader :=
  { reader := { data := content, sizes := sizes, eager := eager }, size := aLen }

end BufReader

/-- The byte in front of the memory that an empty read is given is in `before`; it
becomes the last byte then. -/
structure ExactReader where
  parent : BufReader
  isUnget : Bool := false
  last : UInt8 := 0
  before : UInt8 := 0

namespace ExactReader

def unget (s : ExactReader) : Except String ExactReader :=
  if s.isUnget then .error "unget already called" else .ok { s with isUnget := true }

/-- The part of `read` after the byte that was given back. -/
def readParent (s : ExactReader) (aSize : ℕ) : Except String (Bytes × ExactReader) :=
  let r := s.parent.read aSize
  if r.1.length < aSize then .error "ExactReader: eof"
  else .ok (r.1, { s with parent := r.2, last := r.1.getLast?.getD s.before })

/-- The size is of type `size_t`. -/
def read (s : ExactReader) (aSize : ℕ) : Except String (Bytes × ExactReader) :=
  if s.isUnget then
    let n := sizeSub aSize 1
    if n = 0 then .ok ([s.last], { s with isUnget := false })
    else
      let t : ExactReader := { s with isUnget := false, last := 0 }
      (t.readParent n).map fun r => (s.last :: r.1, r.2)
  else s.readParent aSize

end ExactReader

/-! ## Nothing is lost in the buffer -/

/-- The bytes that are still to be read. -/
def BufReader.pending (b : BufReader) : Bytes := b.buffer.drop b.pos ++ b.reader.data

def ExactReader.pending (s : ExactReader) : Bytes :=
  if s.isUnget then s.last :: s.parent.pending else s.parent.pending

/-- The buffer has room, and the reader knows its end only when it is there. -/
structure BufReader.Ok (b : BufReader) : Prop where
  size : 0 < b.size
  eof : b.reader.isEof = true → b.reader.data = []

theorem BufReader.construct_ok (content : Bytes) (sizes : List ℕ) (eager : Bool) {aLen : ℕ}
    (hlen : 0 < aLen) : (BufReader.construct content sizes eager aLen).Ok :=
  ⟨hlen, fun heof => by cases heof⟩

@[simp] theorem BufReader.construct_pending (content : Bytes) (sizes : List ℕ) (eager : Bool)
    (aLen : ℕ) : (BufReader.construct content sizes eager aLen).pending = content := rfl

theorem Reader.read_size_pos (r : Reader) {aSize : ℕ} (hsize : 0 < aSize) :
    0 < min aSize (r.sizes.head?.elim aSize Nat.succ) := by
  cases r.sizes.head? with
  | none => simpa using hsize
  | some k => simp [hsize]

theorem BufReader.Ok.refill {b : BufReader} (h : b.Ok) (havail : b.avail = 0) :
    b.refill.Ok ∧ b.refill.pending = b.pending ∧
      (b.refill.avail = 0 → b.refill.reader.isEof = true) := by
  have hpos := b.reader.read_size_pos h.size
  have hbuffer : b.buffer.drop b.pos = [] := List.drop_eq_nil_of_le (by
    unfold BufReader.avail at havail
    omega)
  refine ⟨⟨h.size, ?_⟩, ?_, ?_⟩
  · intro heof
    simp only [BufReader.refill, Reader.read, Bool.or_eq_true, Bool.and_eq_true,
      List.isEmpty_iff] at heof ⊢
    rcases heof with (heof | hnil) | ⟨-, hnil⟩
    · rw [h.eof heof, List.drop_nil]
    · rcases List.take_eq_nil_iff.mp hnil with hzero | hnil
      · omega
      · rw [hnil, List.drop_nil]
    · exact hnil
  · simp [BufReader.pending, BufReader.refill, Reader.read, hbuffer]
  · intro hzero
    simp only [BufReader.avail, BufReader.refill, Nat.sub_zero, List.length_eq_zero_iff] at hzero
    simp only [BufReader.refill, Reader.read, Bool.or_eq_true, List.isEmpty_iff]
    exact .inl (.inr hzero)

/-- The buffer after the refill, if there is one. -/
theorem BufReader.Ok.exists_refilled {b : BufReader} (h : b.Ok) :
    ∃ b', (if b.avail = 0 then b.refill else b) = b' ∧ b'.Ok ∧ b'.pending = b.pending ∧
      (b'.avail = 0 → b'.reader.isEof = true) := by
  refine ⟨_, rfl, ?_⟩
  split
  case isTrue havail => exact h.refill havail
  case isFalse havail => exact ⟨h, rfl, fun hzero => absurd hzero havail⟩

/-- The buffer when `n` bytes were copied from it. -/
theorem BufReader.Ok.copy {b : BufReader} (h : b.Ok) {n : ℕ} (hn : n ≤ b.avail) :
    ({ b with pos := b.pos + n } : BufReader).Ok ∧
      b.pending = (b.buffer.drop b.pos).take n ++
        ({ b with pos := b.pos + n } : BufReader).pending ∧
      ((b.buffer.drop b.pos).take n).length = n := by
  refine ⟨⟨h.size, h.eof⟩, ?_, ?_⟩
  · simp only [BufReader.pending]
    rw [← List.append_assoc, ← List.drop_drop, List.take_append_drop]
  · rw [List.length_take, List.length_drop]
    exact Nat.min_eq_left hn

/-- Less is pending, or left to give, when something was taken or given. -/
theorem BufReader.Ok.length_lt {b : BufReader} (h : b.Ok) {n : ℕ} (hn : n ≤ b.avail)
    {out todo : Bytes} (hprogress : 0 < n ∨ out ≠ []) :
    ({ b with pos := b.pos + n } : BufReader).pending.length + todo.length <
      b.pending.length + (out ++ todo).length := by
  obtain ⟨-, hparts, hlength⟩ := h.copy hn
  rw [hparts, List.length_append, List.length_append, hlength]
  rcases hprogress with hpos | hne
  · omega
  · have hpos := List.length_pos_iff.mpr hne
    omega

theorem BufReader.eof_iff (b : BufReader) :
    b.eof = true ↔ b.buffer.length ≤ b.pos ∧ b.reader.isEof = true := by
  simp [BufReader.eof, BufReader.avail, Nat.sub_eq_zero_iff_le]

theorem BufReader.Ok.pending_of_eof {b : BufReader} (h : b.Ok) (heof : b.eof = true) :
    b.pending = [] := by
  rw [BufReader.eof_iff] at heof
  rw [BufReader.pending, List.drop_eq_nil_of_le heof.1, h.eof heof.2, List.nil_append]

theorem BufReader.Ok.fill {fuel aLen : ℕ} {b : BufReader} (h : b.Ok) (hfuel : aLen ≤ fuel) :
    (fill fuel aLen b).1 = b.pending.take aLen ∧
      (fill fuel aLen b).2.pending = b.pending.drop aLen ∧ (fill fuel aLen b).2.Ok ∧
      ((fill fuel aLen b).1.length < aLen → (fill fuel aLen b).2.eof = true) := by
  induction fuel generalizing aLen b with
  | zero =>
      obtain rfl : aLen = 0 := by omega
      exact ⟨rfl, rfl, h, fun hlt => absurd hlt (Nat.not_lt_zero _)⟩
  | succ fuel ih =>
      unfold BufReader.fill
      split
      case isTrue hzero =>
        rw [hzero]
        exact ⟨rfl, rfl, h, fun hlt => absurd hlt (Nat.not_lt_zero _)⟩
      case isFalse hne =>
        obtain ⟨c, hc, hok, hpending, hempty⟩ := h.exists_refilled
        rw [hc, ← hpending]
        obtain ⟨hcopy, hparts, hlen⟩ := hok.copy (n := min aLen c.avail) (Nat.min_le_right _ _)
        have hsize : min aLen c.avail ≤ aLen := Nat.min_le_left _ _
        dsimp only
        split
        case isTrue heof =>
          have hnil := hcopy.pending_of_eof heof
          rw [hnil, List.append_nil] at hparts
          have hle : c.pending.length ≤ aLen := by rw [hparts, hlen]; exact hsize
          rw [List.take_of_length_le hle, List.drop_eq_nil_of_le hle]
          exact ⟨hparts.symm, hnil, hcopy, fun _ => heof⟩
        case isFalse heof =>
          have hprogress : 0 < min aLen c.avail := by
            by_contra hzero
            have havail : c.avail = 0 := by omega
            apply heof
            rw [BufReader.eof_iff]
            refine ⟨?_, hempty havail⟩
            unfold BufReader.avail at havail
            dsimp only
            omega
          have hneed : aLen - min aLen c.avail ≤ fuel := by omega
          obtain ⟨hbytes, hleft, hok', heof'⟩ := ih hcopy hneed
          refine ⟨?_, ?_, hok', ?_⟩
          · rw [hbytes, hparts, List.take_append, hlen,
              List.take_of_length_le (hlen.trans_le hsize)]
          · rw [hleft, hparts, List.drop_append, hlen,
              List.drop_eq_nil_of_le (hlen.trans_le hsize), List.nil_append]
          · intro hlt
            rw [List.length_append, hlen] at hlt
            exact heof' (by omega)

theorem BufReader.Ok.read {b : BufReader} (h : b.Ok) (aLen : ℕ) :
    (b.read aLen).1 = b.pending.take aLen ∧ (b.read aLen).2.pending = b.pending.drop aLen ∧
      (b.read aLen).2.Ok := by
  unfold BufReader.read
  split
  case isTrue heof =>
    have hnil := h.pending_of_eof heof
    rw [hnil, List.take_nil, List.drop_nil]
    exact ⟨rfl, rfl, h⟩
  case isFalse =>
    obtain ⟨hbytes, hleft, hok, -⟩ := h.fill (le_refl aLen)
    exact ⟨hbytes, hleft, hok⟩

/-- A read that gives less than it was asked for is at the end. -/
theorem BufReader.Ok.eof_of_read {b : BufReader} (h : b.Ok) {aLen : ℕ}
    (hlt : (b.read aLen).1.length < aLen) : (b.read aLen).2.eof = true := by
  unfold BufReader.read at hlt ⊢
  split
  case isTrue heof => exact heof
  case isFalse heof =>
    rw [if_neg heof] at hlt
    obtain ⟨-, -, -, hend⟩ := h.fill (le_refl aLen)
    exact hend hlt

/-! ## The reader follows the feed -/

def exactReader : Istream ExactReader where
  read n := fun s => s.read n
  unget := fun s => s.unget.map fun s => ((), s)
  left s := s.pending.length

/-- What the feed has is pending, and the byte that can be given back is the last one. -/
structure Follows (bytes : Bytes) (f : Feed) (s : ExactReader) : Prop where
  parent : s.parent.Ok
  rest : f.rest = s.pending
  ungot : s.isUnget = true → f.last = none
  last : ∀ b, f.last = some b → s.last = b
  parts : ∃ front, f.PartOf bytes front

theorem Follows.readParent {bytes : Bytes} {f : Feed} {s : ExactReader} (h : Follows bytes f s)
    {n : ℕ} (hunget : s.isUnget = false) (hn : n ≤ f.rest.length) :
    ∃ s', s.readParent n = .ok (f.rest.take n, s') ∧
      Follows bytes { rest := f.rest.drop n, last := (f.rest.take n).getLast? } s' := by
  obtain ⟨hbytes, hleft, hok⟩ := h.parent.read n
  obtain ⟨front, hpart⟩ := h.parts
  have hpending : f.rest = s.parent.pending := by
    rw [h.rest, ExactReader.pending, if_neg (by simp [hunget])]
  rw [← hpending] at hbytes hleft
  have hlen : ¬ (s.parent.read n).1.length < n := by
    rw [hbytes, List.length_take]
    omega
  rw [ExactReader.readParent, if_neg hlen, hbytes]
  refine ⟨_, rfl, hok, ?_, ?_, ?_, _, hpart.read n⟩
  · simp only [ExactReader.pending, hunget, Bool.false_eq_true, if_false, hleft]
  · intro hsome
    simp only [hunget, Bool.false_eq_true] at hsome
  · intro b hb
    simp only at hb
    simp only [hb, Option.getD_some]

theorem Follows.readParent_short {bytes : Bytes} {f : Feed} {s : ExactReader}
    (h : Follows bytes f s) {n : ℕ} (hunget : s.isUnget = false) (hn : f.rest.length < n) :
    s.readParent n = .error "ExactReader: eof" := by
  obtain ⟨hbytes, -, -⟩ := h.parent.read n
  have hpending : f.rest = s.parent.pending := by
    rw [h.rest, ExactReader.pending, if_neg (by simp [hunget])]
  have hlen : (s.parent.read n).1.length < n := by
    rw [hbytes, List.length_take, ← hpending]
    omega
  rw [ExactReader.readParent, if_pos hlen]

/-- The byte that was given back is read again, and stays the last one. -/
theorem Follows.again {bytes : Bytes} {f : Feed} {s : ExactReader} (h : Follows bytes f s)
    (hunget : s.isUnget = true) :
    f.rest = s.last :: s.parent.pending ∧
      Follows bytes { rest := s.parent.pending, last := some s.last }
        { s with isUnget := false } := by
  have hrest : f.rest = s.last :: s.parent.pending := by
    rw [h.rest, ExactReader.pending, if_pos hunget]
  obtain ⟨front, hpart⟩ := h.parts
  have hread := hpart.read 1
  rw [hrest] at hread
  refine ⟨hrest, h.parent, rfl, ?_, ?_, _, hread⟩
  · intro hsome
    cases hsome
  · intro b hb
    exact Option.some.inj hb

/-- Before a larger read the last byte is cleared. -/
theorem Follows.clear {bytes rest : Bytes} {last : Option UInt8} {s : ExactReader}
    (h : Follows bytes { rest := rest, last := last } { s with isUnget := false }) :
    Follows bytes { rest := rest } { s with isUnget := false, last := 0 } := by
  obtain ⟨front, hpart⟩ := h.parts
  refine ⟨h.parent, h.rest, ?_, ?_, front, hpart.1, ?_⟩
  · intro hsome
    cases hsome
  · intro b hb
    cases hb
  · intro b hb
    cases hb

/-- A read that starts with the byte that was given back is one of a byte, or one of
this byte and the rest. -/
theorem read_unget {s : ExactReader} (hunget : s.isUnget = true) {n : ℕ} (hpos : 0 < n)
    (hn : n < 2 ^ 64) :
    s.read n = if n = 1 then .ok ([s.last], { s with isUnget := false }) else
      (({ s with isUnget := false, last := 0 } : ExactReader).readParent (n - 1)).map
        fun r => (s.last :: r.1, r.2) := by
  have hsub : sizeSub n 1 = n - 1 := sizeSub_of_le hpos hn
  have hone : n - 1 = 0 ↔ n = 1 := by omega
  rw [ExactReader.read, if_pos hunget]
  simp only [hsub, hone]

theorem exactReader_simulates {bytes : Bytes} (hbytes : bytes.length < 2 ^ 64) (full : Prop)
    (max : ℕ) (hmax : max < 2 ^ 64) : Simulates exactReader full max (Follows bytes) where
  read n f s h hpos hn := by
    cases hunget : s.isUnget with
    | false =>
        have hread : exactReader.read n s = s.readParent n := if_neg (by simp [hunget])
        rw [hread]
        exact h.readParent hunget hn
    | true =>
        obtain ⟨hrest, hagain⟩ := h.again hunget
        have hn₀ : 0 < n := by
          rcases hpos with hpos | hsome
          · exact hpos
          · simp [h.ungot hunget] at hsome
        have hlt : n < 2 ^ 64 := by
          obtain ⟨front, hpart⟩ := h.parts
          have hlen := hpart.length
          omega
        have hread := read_unget hunget hn₀ hlt
        by_cases hone : n = 1
        · rw [if_pos hone] at hread
          subst hone
          rw [hrest]
          exact ⟨_, hread, hagain⟩
        · rw [if_neg hone] at hread
          obtain ⟨m, rfl⟩ : ∃ m, n = m + 1 := ⟨n - 1, by omega⟩
          rw [hrest, List.length_cons] at hn
          obtain ⟨s', hs', hfollows⟩ := hagain.clear.readParent (n := m) rfl (by
            dsimp only
            omega)
          rw [Nat.add_sub_cancel, hs'] at hread
          refine ⟨s', ?_, ?_⟩
          · rw [hrest]
            exact hread
          · have hne : s.parent.pending.take m ≠ [] := by
              rw [ne_eq, List.take_eq_nil_iff]
              rintro (hzero | hnil)
              · omega
              · rw [hnil, List.length_nil] at hn
                omega
            rw [hrest, List.drop_succ_cons, List.take_succ_cons, List.getLast?_cons_of_ne_nil hne]
            exact hfollows
  short hfull n f s h hle hn := by
    cases hunget : s.isUnget with
    | false =>
        have hread : exactReader.read n s = s.readParent n := if_neg (by simp [hunget])
        exact ⟨_, hread.trans (h.readParent_short hunget hn)⟩
    | true =>
        obtain ⟨hrest, hagain⟩ := h.again hunget
        rw [hrest, List.length_cons] at hn
        have hread := read_unget hunget (n := n) (by omega) (by omega)
        rw [if_neg (by omega), hagain.clear.readParent_short rfl (by dsimp only; omega)] at hread
        exact ⟨_, hread⟩
  unget f s b h hb := by
    cases hunget : s.isUnget with
    | true =>
        rw [h.ungot hunget] at hb
        cases hb
    | false =>
        have hok : exactReader.unget s = .ok ((), { s with isUnget := true }) := by
          simp only [exactReader, ExactReader.unget, hunget, Bool.false_eq_true, if_false]
          rfl
        obtain ⟨front, hpart⟩ := h.parts
        obtain ⟨front', -, hpart'⟩ := hpart.unget hb
        refine ⟨_, hok, h.parent, ?_, fun _ => rfl, ?_, front', hpart'⟩
        · rw [h.rest, ← h.last b hb]
          simp [ExactReader.pending, hunget]
        · intro b hb
          cases hb
  left f s h := congrArg List.length h.rest.symm

end Stuff.FileReader
