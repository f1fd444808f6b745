import Stuff.FileReader
import Stuff.Loops
import Stuff.Splitting

/-!
# A file in chunks and in lines

`File::by_chunk` hands on what each read of a buffered reader gives. `File::by_string`
collects the chunks, hands on every line that is complete, and keeps what is behind the
last newline for the next chunk.
-/
namespace Stuff.FileChunks
open FileReader Loops MachineWords Splitting

def newline : UInt8 := 0x0a

section
variable {τ : Type} (aBufferSize : ℕ) (aHandler : τ → Bytes → τ)

/-- A turn of the loop, with what the handler has made so far. -/
def chunkTurn (s : BufReader × τ) : Turn (BufReader × τ) τ :=
  if s.1.eof then .leave s.2
  else .next ((s.1.read aBufferSize).2, aHandler s.2 (s.1.read aBufferSize).1)

def byChunk (n : ℕ) (reader : BufReader) (t : τ) : Option τ :=
  loop (fun _ s => some (chunkTurn aBufferSize aHandler s)) n (reader, t)

end

/-- What `by_string` keeps, and the lines that its handler was called with. -/
structure Lines where
  sBuf : Bytes := []
  lines : List Bytes := []
deriving DecidableEq, Repr

/-- The loop over the newlines. The argument is what begins at `sPos`. -/
def cutLines (rest : Bytes) : List Bytes × Bytes :=
  if _hnewline : newline ∈ rest then
    let sLine := rest.takeWhile (· != newline)
    let r := cutLines (rest.drop (sLine.length + 1))
    (sLine :: r.1, r.2)
  else ([], rest)
termination_by rest.length
decreasing_by
  have hpos := List.length_pos_of_mem _hnewline
  rw [List.length_drop]
  omega

def Lines.append (s : Lines) (aStr : Bytes) : Lines :=
  { sBuf := (cutLines (s.sBuf ++ aStr)).2, lines := s.lines ++ (cutLines (s.sBuf ++ aStr)).1 }

def Lines.flush (s : Lines) : List Bytes := if s.sBuf = [] then s.lines else s.lines ++ [s.sBuf]

def byString (aBufferSize n : ℕ) (reader : BufReader) : Option (List Bytes) :=
  (byChunk aBufferSize Lines.append n reader {}).map Lines.flush

/-! ## What the chunks are -/

section
variable {τ : Type} {aBufferSize : ℕ} {aHandler : τ → Bytes → τ}

/-- The bytes that are to come, and one more for the read that finds the end. -/
def rank (s : BufReader × τ) : ℕ := s.1.pending.length + if s.1.eof then 0 else 1

/-- What holds of the bytes before each chunk, the handler keeps. -/
theorem byChunk_returns (I : Bytes → τ → Prop)
    (hchunk : ∀ front t aStr, I front t → I (front ++ aStr) (aHandler t aStr))
    (hsize : 0 < aBufferSize) {reader : BufReader} (hreader : reader.Ok) {t : τ} (ht : I [] t) :
    ∃ t', Returns (fun n => byChunk aBufferSize aHandler n reader t) t' ∧ I reader.pending t' := by
  have hstart : reader.Ok ∧ ∃ front, reader.pending = front ++ reader.pending ∧ I front t :=
    ⟨hreader, [], rfl, ht⟩
  apply loop_returns (I := fun s : BufReader × τ => s.1.Ok ∧
    ∃ front, reader.pending = front ++ s.1.pending ∧ I front s.2) rank ?_ hstart
  rintro ⟨b, t⟩ ⟨hb, front, hall, hI⟩
  dsimp only at hb hall hI
  refine ⟨_, returns_some _, ?_⟩
  unfold chunkTurn
  split
  case isTrue heof =>
    rw [hb.pending_of_eof heof, List.append_nil] at hall
    rw [hall]
    exact hI
  case isFalse heof =>
    obtain ⟨hbytes, hleft, hok⟩ := hb.read aBufferSize
    refine ⟨⟨hok, front ++ (b.read aBufferSize).1, ?_, hchunk _ _ _ hI⟩, ?_⟩
    · dsimp only
      rw [hbytes, hleft, List.append_assoc, List.take_append_drop]
      exact hall
    · unfold rank
      dsimp only
      rw [if_neg heof, hleft, List.length_drop]
      -- a read that gives nothing has found the end
      by_cases hpending : b.pending.length < aBufferSize
      · have hend : (b.read aBufferSize).2.eof = true := hb.eof_of_read (by
          rw [hbytes, List.length_take]
          omega)
        rw [if_pos hend]
        omega
      · split <;> omega

end

/-! ## Lines -/

theorem cutLines_spec (rest : Bytes) :
    rest.splitOn newline = (cutLines rest).1 ++ [(cutLines rest).2] := by
  induction rest using cutLines.induct with
  | case1 rest hnewline sLine ih =>
      obtain ⟨hline, hsplit⟩ := eq_append_of_mem hnewline
      rw [cutLines, dif_pos hnewline]
      conv_lhs => rw [hsplit, List.splitOn_append_cons_self_of_not_mem hline, ih]
      rfl
  | case2 rest hnewline =>
      rw [cutLines, dif_neg hnewline]
      exact List.splitOn_eq_singleton hnewline

/-- The lines of what has come so far, without the one that is in the buffer. -/
def Lines.Of (front : Bytes) (s : Lines) : Prop := front.splitOn newline = s.lines ++ [s.sBuf]

theorem Lines.Of.append {front : Bytes} {s : Lines} (h : s.Of front) (aStr : Bytes) :
    (s.append aStr).Of (front ++ aStr) := by
  unfold Lines.Of Lines.append
  rw [splitOn_append_of_eq h, cutLines_spec, List.append_assoc]

theorem Lines.Of.flush {content : Bytes} {s : Lines} (h : s.Of content) :
    s.flush = parts newline content := by
  rw [parts_of_splitOn h, Lines.flush]
  split_ifs
  · rw [List.append_nil]
  · rfl

/-- The lines do not depend on the sizes of the buffers and of the reads. -/
theorem byString_lines (content : Bytes) (sizes : List ℕ) (eager : Bool) {aLen aBufferSize : ℕ}
    (hlen : 0 < aLen) (hsize : 0 < aBufferSize) :
    Returns (fun n => byString aBufferSize n (.construct content sizes eager aLen))
      (parts newline content) := by
  have hstart : Lines.Of [] {} := List.splitOn_nil newline
  obtain ⟨s, hs, hof⟩ := byChunk_returns Lines.Of (fun _ _ aStr h => h.append aStr) hsize
    (BufReader.construct_ok content sizes eager hlen) hstart
  have hflush := hs.map Lines.flush
  rw [hof.flush] at hflush
  exact hflush

theorem byString_lines_cut :
    Returns (fun n => byString 2 n (.construct [0x61, 0x0a, 0x0a, 0x62, 0x63] [0, 1] false 3))
      (parts newline [0x61, 0x0a, 0x0a, 0x62, 0x63]) :=
  byString_lines _ [0, 1] false (by decide) (by decide)

end Stuff.FileChunks
