import Stuff.ByteOrder

/-!
# Readers of bytes

A reader takes bytes from the front. It reads a text if it takes that text and nothing behind it,
whatever follows. Readers one after another read texts one after another, so a format is read back
piece by piece.
-/
namespace Stuff.ByteReaders
open ByteOrder MachineWords

abbrev Reader (α : Type) := StateT Bytes Option α

/-- The reader takes the text, and has the value of it. -/
def Reads {α : Type} (p : Reader α) (text : Bytes) (a : α) : Prop :=
  ∀ rest, p (text ++ rest) = some (a, rest)

/-- The next bytes. -/
def bytes (n : ℕ) : Reader Bytes := fun text =>
  if n ≤ text.length then some (text.take n, text.drop n) else none

/-- A number, with the least significant byte first. -/
def little (n : ℕ) : Reader ℕ := do
  let text ← bytes n
  return ofLittleEndian text

/-- Nothing but this text. -/
def expect (text : Bytes) : Reader Unit := do
  let text' ← bytes text.length
  guard (text' = text)

/-- The next byte, which stays. -/
def peek : Reader UInt8 := fun text =>
  match text with
  | [] => none
  | b :: rest => some (b, b :: rest)

def times {α : Type} (p : Reader α) : ℕ → Reader (List α)
  | 0 => return []
  | n + 1 => do
      let a ← p
      let as ← times p n
      return a :: as

/-- All of the text and no more. -/
def whole {α : Type} (p : Reader α) (text : Bytes) : Option α :=
  match p text with
  | some (a, []) => some a
  | _ => none

section
variable {α β : Type} {p : Reader α} {text text' : Bytes} {a : α} {b : β}

theorem reads_pure (a : α) : Reads (pure a) [] a := fun _ => rfl

theorem Reads.bind {f : α → Reader β} (h : Reads p text a) (hf : Reads (f a) text' b) :
    Reads (p >>= f) (text ++ text') b := by
  intro rest
  have hfirst := h (text' ++ rest)
  rw [List.append_assoc]
  change (p (text ++ (text' ++ rest))).bind _ = _
  rw [hfirst]
  exact hf rest

/-- The rest of a reader takes nothing more. -/
theorem Reads.bind_nil {f : α → Reader β} (h : Reads p text a) (hf : Reads (f a) [] b) :
    Reads (p >>= f) text b := by
  have hbind := h.bind hf
  rwa [List.append_nil] at hbind

theorem Reads.map (h : Reads p text a) (f : α → β) :
    Reads (p >>= fun a => pure (f a)) text (f a) :=
  h.bind_nil (reads_pure (f a))

theorem reads_bytes (text : Bytes) : Reads (bytes text.length) text text := by
  intro rest
  rw [bytes, if_pos (by rw [List.length_append]; exact Nat.le_add_right _ _), List.take_left,
    List.drop_left]

theorem reads_little {n x : ℕ} (hx : x < 256 ^ n) : Reads (little n) (littleEndian n x) x := by
  have hbytes := reads_bytes (littleEndian n x)
  rw [length_littleEndian] at hbytes
  have hmap := hbytes.map ofLittleEndian
  rwa [ofLittleEndian_littleEndian hx] at hmap

theorem reads_expect (text : Bytes) : Reads (expect text) text () := by
  intro rest
  change (bytes text.length (text ++ rest)).bind _ = _
  rw [reads_bytes text rest]
  change (guard (text = text) : Reader Unit) rest = _
  rw [guard, if_pos rfl]
  rfl

/-- The first byte says how to go on. -/
theorem Reads.peek {f : UInt8 → Reader α} {c : UInt8} {cs : Bytes} (h : Reads (f c) (c :: cs) a) :
    Reads (ByteReaders.peek >>= f) (c :: cs) a := by
  intro rest
  exact h rest

theorem reads_times {texts : List Bytes} {as : List α}
    (h : List.Forall₂ (fun text a => Reads p text a) texts as) :
    Reads (times p as.length) texts.flatten as := by
  induction h with
  | nil => exact reads_pure []
  | cons hhead _ ih => exact hhead.bind (ih.map _)

theorem Reads.whole (h : Reads p text a) : ByteReaders.whole p text = some a := by
  have hnil := h []
  rw [List.append_nil] at hnil
  rw [ByteReaders.whole, hnil]

end

end Stuff.ByteReaders
