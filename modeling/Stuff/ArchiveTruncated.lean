import Stuff.FileFilterRoundTrip

/-!
# Files that end inside of a member

`Archive::ReadGzip` throws when `inflate` fails, and leaves `finish` to `IFilter`, which says
that all is done. Its state, that knows whether the last stream has ended, is never asked at the
end of the file. So a file that is cut anywhere is read to its end, as far as it goes.
-/
namespace Stuff.Archive
open FileReader Loops MachineWords

/-- A filter that may throw. -/
structure Throwing (τ : Type*) where
  estimate : τ → ℕ → ℕ
  filter : τ → Bytes → ℕ → Except String (Pair τ)
  finish : τ → ℕ → Except String (Finish τ)

def IFilter.throwing {τ : Type*} (c : IFilter τ) : Throwing τ where
  estimate := c.estimate
  filter s aSrc aDstLen := .ok (c.filter s aSrc aDstLen)
  finish s aDstLen := .ok (c.finish s aDstLen)

/-! ## `ReadGzip` over zlib -/

def Z_OK : ℤ := 0
def Z_STREAM_END : ℤ := 1
def Z_BUF_ERROR : ℤ := -5

/-- What a call of `inflate` returns, takes and writes. -/
structure Inflated (σ : Type*) where
  code : ℤ
  usedSrc : ℕ
  out : Bytes
  state : σ

/-- What `ReadGzip` uses of zlib. -/
structure Zlib (σ : Type*) where
  inflate : σ → Bytes → ℕ → Inflated σ
  inflateReset : σ → σ

namespace Zlib

variable {σ : Type*} (z : Zlib σ)

def filter (s : σ) (aSrc : Bytes) (aDstLen : ℕ) : Except String (Pair σ) :=
  let r := z.inflate s aSrc aDstLen
  if r.code ≠ Z_OK ∧ r.code ≠ Z_STREAM_END then
    .error ("ReadGzip: fail to inflate: " ++ toString r.code)
  else
    .ok {
      usedSrc := r.usedSrc
      out := r.out
      state := if r.code = Z_STREAM_END then z.inflateReset r.state else r.state }

variable {z} {s : σ} {aSrc : Bytes} {aDstLen : ℕ}

theorem filter_of_ok (hcode : (z.inflate s aSrc aDstLen).code = Z_OK) :
    z.filter s aSrc aDstLen = .ok {
      usedSrc := (z.inflate s aSrc aDstLen).usedSrc
      out := (z.inflate s aSrc aDstLen).out
      state := (z.inflate s aSrc aDstLen).state } := by
  have hopen : (z.inflate s aSrc aDstLen).code ≠ Z_STREAM_END := by
    rw [hcode]
    decide
  unfold Zlib.filter
  rw [if_neg fun hcodes => hcodes.1 hcode, if_neg hopen]

theorem filter_of_end (hcode : (z.inflate s aSrc aDstLen).code = Z_STREAM_END) :
    z.filter s aSrc aDstLen = .ok {
      usedSrc := (z.inflate s aSrc aDstLen).usedSrc
      out := (z.inflate s aSrc aDstLen).out
      state := z.inflateReset (z.inflate s aSrc aDstLen).state } := by
  unfold Zlib.filter
  rw [if_neg fun hcodes => hcodes.2 hcode, if_pos hcode]

variable (z)

/-- `estimate` and `finish` are those of `IFilter`. -/
def readGzip : Throwing σ where
  estimate _ aSize := aSize
  filter := z.filter
  finish s _ := .ok { out := [], done := true, state := s }

end Zlib

/-! ## `Archive::filter` -/

section
variable {τ : Type*} (c : Throwing τ)

/-- With the rest of the input and what `sResult` has. -/
def inputTurn (MAX_INPUT_CHUNK size : ℕ) :
    τ × Bytes × Bytes → Turn (τ × Bytes × Bytes) (Except String (τ × Bytes))
  | (s, rest, sResult) =>
      if rest = [] then .leave (.ok (s, sResult))
      else
        match c.filter s (rest.take (min rest.length MAX_INPUT_CHUNK)) size with
        | .error text => .leave (.error text)
        | .ok sInfo =>
            if sInfo.out = [] ∧ sInfo.usedSrc = 0 then
              .leave (.error "Archive::filter make no progress")
            else .next (sInfo.state, rest.drop sInfo.usedSrc, sResult ++ sInfo.out)

def finishTurn (size : ℕ) : τ × Bytes → Turn (τ × Bytes) (Except String Bytes)
  | (s, sResult) =>
      match c.finish s size with
      | .error text => .leave (.error text)
      | .ok sInfo =>
          if sInfo.done then .leave (.ok (sResult ++ sInfo.out))
          else if sInfo.out = [] then .leave (.error "Archive::finish make no progress")
          else .next (sInfo.state, sResult ++ sInfo.out)

/-- `sBuffer` has the size that the filter estimates for a chunk. -/
def filter (n : ℕ) (s : τ) (aStr : Bytes) (MAX_INPUT_CHUNK : ℕ) : Option (Except String Bytes) :=
  let size := c.estimate s MAX_INPUT_CHUNK
  (loop (fun _ t => some (inputTurn c MAX_INPUT_CHUNK size t)) n (s, aStr, [])).bind fun
    | .error text => some (.error text)
    | .ok t => loop (fun _ t => some (finishTurn c size t)) n t

end

end Stuff.Archive

namespace Stuff.FileFilter
open Archive FileReader Loops MachineWords

/-! ## `FilterReader` over a filter that may throw -/

namespace FilterReader

section
variable {τ : Type*} (c : Throwing τ)

def tryReadTurn (aLen : ℕ) (s : FilterReader τ × Bytes) :
    Turn (FilterReader τ × Bytes) (Except String (Bytes × FilterReader τ)) :=
  if s.2.length < aLen then
    let buf := if s.1.buf.avail = 0 then s.1.buf.refill else s.1.buf
    if 0 < buf.avail then
      match c.filter s.1.m_Filter (buf.buffer.drop buf.pos) (aLen - s.2.length) with
      | .error text => .leave (.error text)
      | .ok sInfo =>
          .next ({ s.1 with
            m_Filter := sInfo.state
            buf := { buf with pos := buf.pos + sInfo.usedSrc } }, s.2 ++ sInfo.out)
    else if buf.reader.isEof then
      match c.finish s.1.m_Filter (aLen - s.2.length) with
      | .error text => .leave (.error text)
      | .ok sInfo =>
          if sInfo.done then
            .leave (.ok (s.2 ++ sInfo.out, { m_Filter := sInfo.state, buf := buf, m_Eof := true }))
          else .next ({ s.1 with m_Filter := sInfo.state, buf := buf }, s.2 ++ sInfo.out)
    else .next ({ s.1 with buf := buf }, s.2)
  else .leave (.ok (s.2, s.1))

def tryRead (n : ℕ) (s : FilterReader τ) (aLen : ℕ) :
    Option (Except String (Bytes × FilterReader τ)) :=
  if s.m_Eof then some (.ok ([], s)) else loop (fun _ s => some (tryReadTurn c aLen s)) n (s, [])

/-- One read after the other, up to the first one that throws. -/
def tryReads (n : ℕ) (s : FilterReader τ) :
    List ℕ → Option (Except String (List Bytes × FilterReader τ))
  | [] => some (.ok ([], s))
  | aLen :: lens =>
      (s.tryRead c n aLen).bind fun
        | .error text => some (.error text)
        | .ok r => (r.2.tryReads n lens).map fun t => t.map fun t => (r.1 :: t.1, t.2)

end

/-- Where the filter does not throw, a turn is the one of the reader without exceptions. -/
theorem tryReadTurn_throwing {τ : Type*} (c : IFilter τ) (aLen : ℕ) (s : FilterReader τ × Bytes) :
    tryReadTurn c.throwing aLen s = (readTurn c aLen s).map .ok := by
  unfold tryReadTurn readTurn IFilter.throwing
  generalize (if s.1.buf.avail = 0 then s.1.buf.refill else s.1.buf) = buf
  dsimp only
  split
  case isTrue =>
    split
    case isTrue => rfl
    case isFalse =>
      split
      case isTrue => split <;> rfl
      case isFalse => rfl
  case isFalse => rfl

theorem tryReads_throwing {τ : Type*} (c : IFilter τ) (n : ℕ) (s : FilterReader τ)
    (lens : List ℕ) : s.tryReads c.throwing n lens = (s.reads c n lens).map .ok := by
  induction lens generalizing s with
  | nil => rfl
  | cons aLen lens ih =>
      have hread : s.tryRead c.throwing n aLen = (s.read c n aLen).map .ok := by
        unfold tryRead FilterReader.read
        split
        case isTrue => rfl
        case isFalse => exact loop_map _ (tryReadTurn_throwing c aLen) n _
      rw [tryReads, reads, hread]
      cases s.read c n aLen with
      | none => rfl
      | some r =>
          simp only [Option.map_some, Option.bind_some, ih, Option.map_map]
          rfl

end FilterReader

end Stuff.FileFilter

namespace Stuff.Archive
open FileReader Loops MachineWords

/-! ## What zlib promises -/

/-- An incremental decoder: in the state `s` of `Inside taken out s` it has taken `taken` and
written `out` of a stream. It makes progress when it has a source and a destination, and reports
the end in the call that takes the last byte of the stream, and in no other. -/
structure Inflates {σ : Type*} (z : Zlib σ) (stream : Bytes → Bytes → Prop)
    (Inside : Bytes → Bytes → σ → Prop) (s₀ : σ) : Prop where
  start : Inside [] [] s₀
  nonempty : ∀ {data file}, stream data file → file ≠ []
  bounds : ∀ {data taken left out s src rest next dst}, stream data (taken ++ left) → left ≠ [] →
    Inside taken out s → src ≠ [] → src ++ rest = left ++ next → 0 < dst →
      (z.inflate s src dst).usedSrc ≤ src.length ∧ (z.inflate s src dst).out.length ≤ dst ∧
      (0 < (z.inflate s src dst).usedSrc ∨ (z.inflate s src dst).out ≠ [])
  inflate : ∀ {data taken left out s src rest next dst}, stream data (taken ++ left) → left ≠ [] →
    Inside taken out s → src ≠ [] → src ++ rest = left ++ next → 0 < dst →
      ((z.inflate s src dst).code = Z_OK ∧
        (∃ left', left' ≠ [] ∧ left = src.take (z.inflate s src dst).usedSrc ++ left') ∧
        out ++ (z.inflate s src dst).out <+: data ∧
        Inside (taken ++ src.take (z.inflate s src dst).usedSrc) (out ++ (z.inflate s src dst).out)
          (z.inflate s src dst).state) ∨
      ((z.inflate s src dst).code = Z_STREAM_END ∧
        left = src.take (z.inflate s src dst).usedSrc ∧
        out ++ (z.inflate s src dst).out = data ∧
        Inside [] [] (z.inflateReset (z.inflate s src dst).state))

/-- A read filter that gives what it has when the file ends anywhere. In the state `s` of
`At rest todo s` the members that it was in at the start would go on with `rest`, which holds
`todo`. -/
structure Lenient {τ : Type*} (c : Throwing τ) (At : Bytes → Bytes → τ → Prop) : Prop where
  filter : ∀ {s src rest todo dst}, At (src ++ rest) todo s → src ≠ [] → 0 < dst →
    ∃ sInfo, c.filter s src dst = .ok sInfo ∧ sInfo.usedSrc ≤ src.length ∧
      sInfo.out.length ≤ dst ∧ (0 < sInfo.usedSrc ∨ sInfo.out ≠ []) ∧
      ∃ todo', todo = sInfo.out ++ todo' ∧ At (src.drop sInfo.usedSrc ++ rest) todo' sInfo.state
  finish : ∀ {s rest todo} dst, At rest todo s →
    ∃ s', c.finish s dst = .ok { out := [], done := true, state := s' }

namespace Zlib

section
variable {σ : Type*} {z : Zlib σ} {stream : Bytes → Bytes → Prop}
variable {Inside : Bytes → Bytes → σ → Prop} {s₀ : σ}

/-- Behind the last member, or before the last byte of one. -/
inductive At (stream : Bytes → Bytes → Prop) (Inside : Bytes → Bytes → σ → Prop) :
    Bytes → Bytes → σ → Prop
  | done {s : σ} : At stream Inside [] [] s
  | inside {taken left out more : Bytes} {s : σ} {members : List (Bytes × Bytes)} :
      stream (out ++ more) (taken ++ left) → left ≠ [] → Inside taken out s →
        (∀ m ∈ members, stream m.1 m.2) →
          At stream Inside (left ++ members.flatMap Prod.snd) (more ++ members.flatMap Prod.fst) s

/-- Between two members. -/
theorem At.between (hz : Inflates z stream Inside s₀) {s : σ} {members : List (Bytes × Bytes)}
    (hinside : Inside [] [] s) (h : ∀ m ∈ members, stream m.1 m.2) :
    At stream Inside (members.flatMap Prod.snd) (members.flatMap Prod.fst) s := by
  cases members with
  | nil => exact .done
  | cons m members =>
      have hm : stream ([] ++ m.1) ([] ++ m.2) := h m List.mem_cons_self
      rw [List.flatMap_cons, List.flatMap_cons]
      exact .inside hm (hz.nonempty hm) hinside fun m' hm' => h m' (List.mem_cons_of_mem _ hm')

theorem readGzip_lenient (hz : Inflates z stream Inside s₀) :
    Lenient z.readGzip (At stream Inside) where
  filter := by
    intro s src rest todo dst h hne hdst
    generalize hall : src ++ rest = all at h
    cases h with
    | done => exact absurd (List.append_eq_nil_iff.mp hall).1 hne
    | @inside taken left out more _ members hstream hleft hinside hmembers =>
        obtain ⟨hused, hlen, hprogress⟩ := hz.bounds hstream hleft hinside hne hall hdst
        have hsrc : src.take (z.inflate s src dst).usedSrc ++
            (src.drop (z.inflate s src dst).usedSrc ++ rest) =
              left ++ members.flatMap Prod.snd := by
          rw [← List.append_assoc, List.take_append_drop, hall]
        rcases hz.inflate hstream hleft hinside hne hall hdst with
          ⟨hcode, ⟨left', hne', heq⟩, ⟨more', hmore⟩, hinside'⟩ | ⟨hcode, heq, hdata, hreset⟩
        · -- the stream goes on
          rw [List.append_assoc, List.append_cancel_left_eq] at hmore
          rw [heq, List.append_assoc, List.append_cancel_left_eq] at hsrc
          refine ⟨_, filter_of_ok hcode, hused, hlen, hprogress, more' ++ members.flatMap Prod.fst,
            ?_, ?_⟩
          · rw [← hmore, List.append_assoc]
          · rw [hsrc]
            refine .inside ?_ hne' hinside' hmembers
            rw [List.append_assoc, List.append_assoc, hmore, ← heq]
            exact hstream
        · -- the next stream follows
          rw [List.append_cancel_left_eq] at hdata
          rw [heq, List.append_cancel_left_eq] at hsrc
          refine ⟨_, filter_of_end hcode, hused, hlen, hprogress, members.flatMap Prod.fst, ?_, ?_⟩
          · rw [hdata]
          · rw [hsrc]
            exact At.between hz hreset hmembers
  finish := fun _ _ => ⟨_, rfl⟩

end

end Zlib

end Stuff.Archive

namespace Stuff.FileFilter
open Archive FileReader Loops MachineWords

/-! ## Reading a file that is cut -/

namespace FilterReader

section
variable {τ : Type*} {c : Throwing τ} {At : Bytes → Bytes → τ → Prop}

/-- The file lacks `missing`, and with it there would be `todo` to give. -/
structure Lacks (At : Bytes → Bytes → τ → Prop) (missing todo : Bytes) (s : FilterReader τ) :
    Prop where
  buf : s.buf.Ok
  at_ : At (s.buf.pending ++ missing) todo s.m_Filter
  eof : s.m_Eof = false

/-- A turn of `read` takes or gives something, or is at the end of the file. -/
theorem tryReadTurn_spec (hc : Lenient c At) {aLen : ℕ} {missing todo acc : Bytes}
    {s : FilterReader τ} (h : s.Lacks At missing todo) (hlt : acc.length < aLen) :
    (∃ s', tryReadTurn c aLen (s, acc) = .leave (.ok (acc, s')) ∧ s'.m_Eof = true) ∨
    ∃ out todo' s', tryReadTurn c aLen (s, acc) = .next (s', acc ++ out) ∧ todo = out ++ todo' ∧
      acc.length + out.length ≤ aLen ∧ s'.Lacks At missing todo' ∧
      s'.buf.pending.length + todo'.length < s.buf.pending.length + todo.length := by
  obtain ⟨hok, hat, heof⟩ := h
  obtain ⟨b, hb, hok', hpending, hempty⟩ := hok.exists_refilled
  unfold tryReadTurn
  simp only [if_pos hlt, hb]
  rw [← hpending] at hat ⊢
  rcases Nat.eq_zero_or_pos b.avail with hzero | hpos
  · left
    obtain ⟨s', hfinish⟩ := hc.finish (aLen - acc.length) hat
    rw [if_neg (by omega), if_pos (hempty hzero), hfinish]
    simp only [if_true, List.append_nil]
    exact ⟨_, rfl, rfl⟩
  · right
    have hsrc : b.buffer.drop b.pos ≠ [] := by
      rw [← List.length_pos_iff, List.length_drop]
      exact hpos
    rw [BufReader.pending, List.append_assoc] at hat
    obtain ⟨sInfo, hfilter, hused, hout, hprogress, todo', htodo, hat'⟩ :=
      hc.filter hat hsrc (show 0 < aLen - acc.length by omega)
    rw [if_pos hpos, hfilter]
    rw [List.length_drop] at hused
    obtain ⟨hcopy, -, -⟩ := hok'.copy hused
    refine ⟨sInfo.out, todo', _, rfl, htodo, by omega, ⟨hcopy, ?_, heof⟩, ?_⟩
    · rw [List.drop_drop, ← List.append_assoc] at hat'
      exact hat'
    · rw [htodo]
      exact hok'.length_lt hused hprogress

theorem returns_tryRead {aLen : ℕ} {s : FilterReader τ} {r : Except String (Bytes × FilterReader τ)}
    (heof : s.m_Eof = false)
    (h : Returns (fun n => loop (fun _ s => some (tryReadTurn c aLen s)) n (s, [])) r) :
    Returns (fun n => s.tryRead c n aLen) r := by
  simp only [tryRead, heof, Bool.false_eq_true, if_false]
  exact h

/-- `read` throws nothing, and gives less than it was asked for only at the end. -/
theorem tryRead_returns (hc : Lenient c At) {missing todo : Bytes} {s : FilterReader τ}
    (h : s.Lacks At missing todo ∨ s.m_Eof = true) (aLen : ℕ) :
    ∃ out todo' s', Returns (fun n => s.tryRead c n aLen) (.ok (out, s')) ∧ todo = out ++ todo' ∧
      (s'.m_Eof = true ∨ s'.Lacks At missing todo' ∧ out.length = aLen ∧ s.m_Eof = false) := by
  cases heof : s.m_Eof with
  | true =>
      refine ⟨[], todo, s, ?_, rfl, .inl heof⟩
      simp only [tryRead, heof, if_true]
      exact returns_some _
  | false =>
      have h := h.resolve_right (by simp [heof])
      have hturn : ∀ t : FilterReader τ × Bytes, (∃ left, todo = t.2 ++ left ∧
          t.2.length ≤ aLen ∧ t.1.Lacks At missing left) →
            ∃ u, Returns (fun _ => some (tryReadTurn c aLen t)) u ∧
              u.Ok (fun t => ∃ left, todo = t.2 ++ left ∧ t.2.length ≤ aLen ∧
                  t.1.Lacks At missing left)
                (fun t => t.1.buf.pending.length + (todo.length - t.2.length))
                (fun r => ∃ out todo' s', r = .ok (out, s') ∧ todo = out ++ todo' ∧
                  (s'.m_Eof = true ∨ s'.Lacks At missing todo' ∧ out.length = aLen))
                (t.1.buf.pending.length + (todo.length - t.2.length)) := by
        rintro ⟨t, acc⟩ ⟨left, hleft, hle, hlacks⟩
        refine ⟨_, returns_some _, ?_⟩
        dsimp only at hleft hle hlacks ⊢
        by_cases hlt : acc.length < aLen
        · obtain ⟨t', heq, hend⟩ | ⟨out, left', t', heq, hsplit, hle', hlacks', hrank⟩ :=
            tryReadTurn_spec hc hlacks hlt
          · rw [heq]
            exact ⟨acc, left, t', rfl, hleft, .inl hend⟩
          · rw [heq]
            rw [hsplit, ← List.append_assoc] at hleft
            refine ⟨⟨left', hleft, by rw [List.length_append]; exact hle', hlacks'⟩, ?_⟩
            rw [hleft]
            simp only [hsplit, List.length_append] at hrank ⊢
            omega
        · have hfull : tryReadTurn c aLen (t, acc) = .leave (.ok (acc, t)) := if_neg hlt
          rw [hfull]
          exact ⟨acc, left, t, rfl, hleft, .inr ⟨hlacks, by omega⟩⟩
      obtain ⟨r, hloop, out, todo', s', rfl, htodo, hend⟩ := loop_returns
        (fun t : FilterReader τ × Bytes => t.1.buf.pending.length + (todo.length - t.2.length))
        hturn (s := (s, [])) ⟨todo, rfl, Nat.zero_le _, h⟩
      refine ⟨out, todo', s', returns_tryRead heof hloop, htodo, ?_⟩
      exact hend.imp_right fun hlacks => ⟨hlacks.1, hlacks.2, rfl⟩

/-- Reads throw nothing, and come to the end when they ask for more than there would be. -/
theorem tryReads_returns (hc : Lenient c At) {missing todo : Bytes} {s : FilterReader τ}
    (h : s.Lacks At missing todo ∨ s.m_Eof = true) (lens : List ℕ) :
    ∃ pieces todo' s', Returns (fun n => s.tryReads c n lens) (.ok (pieces, s')) ∧
      todo = pieces.flatten ++ todo' ∧
      (s'.m_Eof = true ∨ pieces.flatten.length = lens.sum ∧ s.m_Eof = false) := by
  induction lens generalizing s todo with
  | nil =>
      refine ⟨[], todo, s, returns_some _, rfl, ?_⟩
      exact h.symm.imp_right fun hlacks => ⟨rfl, hlacks.eof⟩
  | cons aLen lens ih =>
      obtain ⟨out, left, t, hread, hleft, hnext⟩ := tryRead_returns hc h aLen
      obtain ⟨pieces, todo', s', hreads, htodo, hend⟩ :=
        ih (hnext.symm.imp_left fun hlacks => hlacks.1)
      refine ⟨out :: pieces, todo', s', hread.bind (hreads.map _), ?_, ?_⟩
      · rw [hleft, htodo, List.flatten_cons, List.append_assoc]
      · rcases hend with heof | ⟨hlength, hmore⟩
        · exact .inl heof
        · rcases hnext with heof | ⟨-, hlength', hmore'⟩
          · rw [heof] at hmore
            cases hmore
          · right
            rw [List.flatten_cons, List.length_append, List.sum_cons, hlength, hlength']
            exact ⟨rfl, hmore'⟩

end

end FilterReader

end Stuff.FileFilter

namespace Stuff.Archive
open ByteOrder FileReader FileFilter Loops MachineWords

section
variable {τ : Type*} {c : Throwing τ} {At : Bytes → Bytes → τ → Prop}

/-- A turn takes or gives something. -/
theorem inputTurn_spec (hc : Lenient c At) {MAX_INPUT_CHUNK size : ℕ}
    (hchunk : 0 < MAX_INPUT_CHUNK) (hsize : 0 < size) {s : τ} {rest missing todo : Bytes}
    (hat : At (rest ++ missing) todo s) (hne : rest ≠ []) (sResult : Bytes) :
    ∃ s' rest' out todo',
      inputTurn c MAX_INPUT_CHUNK size (s, rest, sResult) = .next (s', rest', sResult ++ out) ∧
      todo = out ++ todo' ∧ At (rest' ++ missing) todo' s' ∧
      rest'.length + todo'.length < rest.length + todo.length := by
  have hpos := List.length_pos_iff.mpr hne
  have hchunked : 0 < min rest.length MAX_INPUT_CHUNK := lt_min hpos hchunk
  obtain ⟨sInputSize, hinput⟩ : ∃ k, min rest.length MAX_INPUT_CHUNK = k := ⟨_, rfl⟩
  have hle : sInputSize ≤ rest.length := hinput ▸ Nat.min_le_left _ _
  rw [hinput] at hchunked
  have hsrc : rest.take sInputSize ≠ [] := by
    rw [← List.length_pos_iff, List.length_take_of_le hle]
    exact hchunked
  have hparts : rest.take sInputSize ++ (rest.drop sInputSize ++ missing) = rest ++ missing := by
    rw [← List.append_assoc, List.take_append_drop]
  obtain ⟨sInfo, hfilter, hused, -, hprogress, todo', htodo, hat'⟩ :=
    hc.filter (hparts ▸ hat) hsrc hsize
  rw [List.length_take_of_le hle] at hused
  have hrest : (rest.take sInputSize).drop sInfo.usedSrc ++ (rest.drop sInputSize ++ missing) =
      rest.drop sInfo.usedSrc ++ missing := by
    rw [← List.append_assoc, ← List.drop_append_of_le_length, List.take_append_drop]
    rw [List.length_take_of_le hle]
    exact hused
  refine ⟨sInfo.state, rest.drop sInfo.usedSrc, sInfo.out, todo', ?_, htodo, hrest ▸ hat', ?_⟩
  · have hmoves : ¬ (sInfo.out = [] ∧ sInfo.usedSrc = 0) := by
      rintro ⟨hnil, hzero⟩
      rcases hprogress with hpos' | hsome
      · omega
      · exact hsome hnil
    simp only [inputTurn, hinput, hfilter, if_neg hne, if_neg hmoves]
  · rw [htodo, List.length_drop, List.length_append]
    rcases hprogress with hpos' | hsome
    · omega
    · have hpos' := List.length_pos_iff.mpr hsome
      omega

/-- `Archive::filter` throws nothing. -/
theorem filter_returns (hc : Lenient c At) {MAX_INPUT_CHUNK : ℕ} (hchunk : 0 < MAX_INPUT_CHUNK)
    {s : τ} (hsize : 0 < c.estimate s MAX_INPUT_CHUNK) {aStr missing todo : Bytes}
    (hat : At (aStr ++ missing) todo s) :
    ∃ out, Returns (fun n => filter c n s aStr MAX_INPUT_CHUNK) (.ok out) ∧ out <+: todo := by
  have hturn : ∀ t : τ × Bytes × Bytes, (∃ left, todo = t.2.2 ++ left ∧
      At (t.2.1 ++ missing) left t.1) →
        ∃ u, Returns (fun _ => some (inputTurn c MAX_INPUT_CHUNK
            (c.estimate s MAX_INPUT_CHUNK) t)) u ∧
          u.Ok (fun t => ∃ left, todo = t.2.2 ++ left ∧ At (t.2.1 ++ missing) left t.1)
            (fun t => t.2.1.length + (todo.length - t.2.2.length))
            (fun r => ∃ s' sResult left, r = .ok (s', sResult) ∧ todo = sResult ++ left ∧
              At missing left s')
            (t.2.1.length + (todo.length - t.2.2.length)) := by
    rintro ⟨t, rest, sResult⟩ ⟨left, hleft, hat⟩
    refine ⟨_, returns_some _, ?_⟩
    dsimp only at hleft hat ⊢
    by_cases hne : rest = []
    · have hdone : inputTurn c MAX_INPUT_CHUNK (c.estimate s MAX_INPUT_CHUNK) (t, rest, sResult) =
          .leave (.ok (t, sResult)) := if_pos hne
      rw [hdone]
      rw [hne, List.nil_append] at hat
      exact ⟨t, sResult, left, rfl, hleft, hat⟩
    · obtain ⟨t', rest', out, left', heq, hsplit, hat', hrank⟩ :=
        inputTurn_spec hc hchunk hsize hat hne sResult
      rw [heq]
      rw [hsplit, ← List.append_assoc] at hleft
      refine ⟨⟨left', hleft, hat'⟩, ?_⟩
      rw [hleft]
      simp only [hsplit, List.length_append] at hrank ⊢
      omega
  obtain ⟨r, hloop, s', sResult, left, rfl, htodo, hat'⟩ := loop_returns
    (fun t : τ × Bytes × Bytes => t.2.1.length + (todo.length - t.2.2.length))
    hturn (s := (s, aStr, [])) ⟨todo, rfl, hat⟩
  obtain ⟨s'', hfinish⟩ := hc.finish (c.estimate s MAX_INPUT_CHUNK) hat'
  refine ⟨sResult, hloop.bind (loop_leave_of_eq ?_), left, htodo.symm⟩
  simp only [finishTurn, hfinish, if_true, List.append_nil]

end

/-! ## Stored bytes -/

namespace ReadGzip

/-- `filter` takes the last byte of a checksum. -/
def ends (s : ReadGzip) : Bytes → ℕ → Bool
  | [], _ => false
  | _ :: _, 0 => false
  | x :: aSrc, aDstLen + 1 =>
      if s = check 0 then true
      else (s.step x).2.ends aSrc (aDstLen + 1 - (s.step x).1.toList.length)

/-- The last byte is one of a checksum, and no one before it. -/
def closes (s : ReadGzip) : Bytes → Bool
  | [] => false
  | x :: src => if s = check 0 then src.isEmpty else (s.step x).2.closes src

theorem ne_nil_of_closes {s : ReadGzip} {src : Bytes} (h : s.closes src = true) : src ≠ [] := by
  rintro rfl
  cases h

theorem closes_of_append {s : ReadGzip} {src left : Bytes} (h : s.closes (src ++ left) = true)
    (hne : left ≠ []) : (s.inflate src).2.closes left = true := by
  induction src generalizing s with
  | nil => exact h
  | cons x src ih =>
      rw [List.cons_append, closes] at h
      split at h
      · rw [List.isEmpty_iff, List.append_eq_nil_iff] at h
        exact absurd h.2 hne
      · exact ih h

theorem closes_blocks (data rest : Bytes) :
    block.closes (data.flatMap storedBlock ++ rest) = block.closes rest := by
  induction data with
  | nil => rfl
  | cons x data ih =>
      rw [List.flatMap_cons, List.append_assoc]
      exact ih

theorem closes_header (rest : Bytes) :
    (header 1).closes (gzipHeader ++ rest) = block.closes rest := rfl

theorem closes_trailer (s : Adler) : block.closes (gzipTrailer s) = true := by
  obtain ⟨a, b, c, d, hcheck⟩ : ∃ a b c d, bigEndian 4 (s.b * 65536 + s.a) = [a, b, c, d] :=
    List.length_eq_four.mp (length_bigEndian 4 _)
  rw [gzipTrailer, hcheck]
  rfl

theorem closes_member (data : Bytes) : (header 1).closes (gzipMember data) = true := by
  rw [gzipMember, List.append_assoc, closes_header, closes_blocks, closes_trailer]

/-- `filter` stops at the end of a stream, and knows when it does. -/
theorem filter_closes {s : ReadGzip} {left src rest next : Bytes} (h : s.closes left = true)
    (hparts : src ++ rest = left ++ next) (dst : ℕ) :
    (s.ends src dst = true ∧ left = src.take (s.filter src dst).usedSrc) ∨
    (s.ends src dst = false ∧
      ∃ left', left' ≠ [] ∧ left = src.take (s.filter src dst).usedSrc ++ left') := by
  induction src generalizing s left dst with
  | nil => exact .inr ⟨rfl, left, ne_nil_of_closes h, rfl⟩
  | cons x src ih =>
      cases dst with
      | zero => exact .inr ⟨rfl, left, ne_nil_of_closes h, rfl⟩
      | succ dst =>
          obtain ⟨y, left, rfl⟩ := List.exists_cons_of_ne_nil (ne_nil_of_closes h)
          rw [List.cons_append, List.cons_append, List.cons.injEq] at hparts
          obtain ⟨rfl, hparts⟩ := hparts
          rw [closes] at h
          by_cases hend : s = check 0
          · subst hend
            rw [if_pos rfl, List.isEmpty_iff] at h
            subst h
            exact .inl ⟨rfl, rfl⟩
          · rw [if_neg hend] at h
            rw [ends, if_neg hend, filter_cons hend, List.take_succ_cons]
            refine (ih h hparts (dst + 1 - (s.step x).1.toList.length)).imp ?_ ?_
            · rintro ⟨hends, hleft⟩
              exact ⟨hends, by rw [← hleft]⟩
            · rintro ⟨hends, left', hne, hleft⟩
              exact ⟨hends, left', hne, by rw [List.cons_append, ← hleft]⟩

theorem state_of_ends {s : ReadGzip} {src : Bytes} {dst : ℕ} (h : s.ends src dst = true) :
    (s.filter src dst).state = header 1 := by
  induction src generalizing s dst with
  | nil => cases h
  | cons x src ih =>
      cases dst with
      | zero => cases h
      | succ dst =>
          by_cases hend : s = check 0
          · subst hend
            rfl
          · rw [ends, if_neg hend] at h
            rw [filter_cons hend]
            exact ih h

/-- What was taken of a stream was not its end, as there is more. -/
def Inside (taken out : Bytes) (s : ReadGzip) : Prop := (header 1).inflate taken = (out, s)

end ReadGzip

/-- A zlib that knows stored blocks of one byte only. -/
def storedZlib : Zlib ReadGzip where
  inflate s aSrc aDstLen :=
    let r := s.filter aSrc aDstLen
    { code :=
        if s.ends aSrc aDstLen then Z_STREAM_END else if r.usedSrc = 0 then Z_BUF_ERROR else Z_OK
      usedSrc := r.usedSrc
      out := r.out
      state := r.state }
  inflateReset _ := .header 1

/-- The filter over it is the one that knows nothing of exceptions. -/
theorem readGzip_stored {s : ReadGzip} {aSrc : Bytes} {aDstLen : ℕ} (hne : aSrc ≠ [])
    (hdst : 0 < aDstLen) :
    storedZlib.readGzip.filter s aSrc aDstLen = .ok (readGzip.filter s aSrc aDstLen) := by
  have hused := s.filter_pos hne hdst
  cases hends : s.ends aSrc aDstLen with
  | true =>
      have hcode : (storedZlib.inflate s aSrc aDstLen).code = Z_STREAM_END := if_pos hends
      refine (Zlib.filter_of_end hcode).trans ?_
      change Except.ok (Pair.mk _ _ (ReadGzip.header 1)) = _
      rw [← ReadGzip.state_of_ends hends]
      rfl
  | false =>
      have hcode : (storedZlib.inflate s aSrc aDstLen).code = Z_OK := by
        simp [storedZlib, hends, hused.ne']
      exact Zlib.filter_of_ok hcode

theorem storedZlib_inflates :
    Inflates storedZlib IsGzipMember ReadGzip.Inside (.header 1) where
  start := rfl
  nonempty := by
    rintro data file rfl
    exact ReadGzip.ne_nil_of_closes (ReadGzip.closes_member data)
  bounds := by
    intro data taken left out s src rest next dst _ _ _ hne _ hdst
    obtain ⟨hused, hout⟩ := s.filter_bounds src dst
    exact ⟨hused, hout, .inl (s.filter_pos hne hdst)⟩
  inflate := by
    intro data taken left out s src rest next dst hstream hleft hinside hne hparts hdst
    have hcloses := ReadGzip.closes_member data
    have hmember := ReadGzip.inflate_member data
    rw [← hstream] at hcloses hmember
    have hinside' : (ReadGzip.header 1).inflate taken = (out, s) := hinside
    have hopen := ReadGzip.closes_of_append hcloses hleft
    rw [ReadGzip.inflate_append, hinside'] at hmember
    rw [hinside'] at hopen
    dsimp only at hopen hmember
    have htaken := s.inflate_taken src dst
    have hused := s.filter_pos hne hdst
    rcases ReadGzip.filter_closes hopen hparts dst with
      ⟨hends, heq⟩ | ⟨hends, left', hne', heq⟩
    · right
      rw [heq, htaken, Prod.mk.injEq] at hmember
      exact ⟨if_pos hends, heq, hmember.1, rfl⟩
    · left
      rw [heq, ReadGzip.inflate_append, htaken, Prod.mk.injEq] at hmember
      refine ⟨?_, ⟨left', hne', heq⟩, ⟨((s.filter src dst).state.inflate left').1, ?_⟩, ?_⟩
      · simp [storedZlib, hends, hused.ne']
      · rw [← hmember.1, List.append_assoc]
        rfl
      · change (ReadGzip.header 1).inflate (taken ++ src.take (s.filter src dst).usedSrc) =
          (out ++ (s.filter src dst).out, (s.filter src dst).state)
        rw [ReadGzip.inflate_append, hinside']
        dsimp only
        rw [htaken]

/-! ## Cut files -/

/-- A file that is cut inside of a member. -/
def EndsInside (stream : Bytes → Bytes → Prop) (members : List (Bytes × Bytes)) (file : Bytes) :
    Prop :=
  (∀ m ∈ members, stream m.1 m.2) ∧ file <+: members.flatMap Prod.snd ∧
    ∀ k, file ≠ (members.take k).flatMap Prod.snd

/-- Neither `FilterReader` nor `Archive::filter` notices where a file is cut: nothing is thrown, the
end is as any other, and what was read is the first part of what the members hold. -/
theorem cut_file {σ : Type*} {z : Zlib σ} {stream : Bytes → Bytes → Prop}
    {Inside : Bytes → Bytes → σ → Prop} {s₀ : σ} (hz : Inflates z stream Inside s₀)
    {members : List (Bytes × Bytes)} (h : ∀ m ∈ members, stream m.1 m.2) {file : Bytes}
    (hfile : file <+: members.flatMap Prod.snd) :
    (∀ sizes eager aLen lens, 0 < aLen → ∃ pieces r,
      Returns (fun n =>
        (FilterReader.construct s₀ file sizes eager aLen).tryReads z.readGzip n lens)
          (.ok (pieces, r)) ∧
      pieces.flatten <+: members.flatMap Prod.fst ∧
      ((members.flatMap Prod.fst).length < lens.sum → r.m_Eof = true)) ∧
    ∀ MAX_INPUT_CHUNK, 0 < MAX_INPUT_CHUNK → ∃ out,
      Returns (fun n => filter z.readGzip n s₀ file MAX_INPUT_CHUNK) (.ok out) ∧
      out <+: members.flatMap Prod.fst := by
  have hlenient := Zlib.readGzip_lenient hz
  obtain ⟨missing, hmissing⟩ := hfile
  have hat : Zlib.At stream Inside (file ++ missing) (members.flatMap Prod.fst) s₀ :=
    hmissing ▸ Zlib.At.between hz hz.start h
  constructor
  · intro sizes eager aLen lens hlen
    have hlacks : (FilterReader.construct s₀ file sizes eager aLen).Lacks
        (Zlib.At stream Inside) missing (members.flatMap Prod.fst) :=
      ⟨BufReader.construct_ok _ _ _ hlen, hat, rfl⟩
    obtain ⟨pieces, todo', r, hreads, htodo, hend⟩ :=
      FilterReader.tryReads_returns hlenient (.inl hlacks) lens
    refine ⟨pieces, r, hreads, ⟨todo', htodo.symm⟩, ?_⟩
    intro hmore
    refine hend.resolve_right fun hfull => ?_
    rw [htodo, List.length_append, hfull.1] at hmore
    omega
  · intro MAX_INPUT_CHUNK hchunk
    exact filter_returns hlenient hchunk hchunk hat

/-- The first block of two, and the begin of the second one. -/
def cutFile : Bytes := [0x78, 0x5e, 0x00, 0x01, 0x00, 0xfe, 0xff, 0x68, 0x00, 0x01]

theorem cutFile_endsInside :
    EndsInside IsGzipMember [([0x68, 0x69], gzipMember [0x68, 0x69])] cutFile := by
  refine ⟨?_, by decide, ?_⟩
  · intro m hm
    rw [List.mem_singleton.mp hm]
    rfl
  · intro k
    cases k with
    | zero => decide
    | succ k =>
        rw [List.take_succ_cons, List.take_nil]
        decide

/-- Half of the data is read, up to an end as any other. -/
theorem cutFile_read :
    Inflates storedZlib IsGzipMember ReadGzip.Inside (.header 1) ∧
    EndsInside IsGzipMember [([0x68, 0x69], gzipMember [0x68, 0x69])] cutFile ∧
    (∃ r, Returns (fun n =>
        (FilterReader.construct (.header 1) cutFile [] false 16).tryReads storedZlib.readGzip n [8])
          (.ok ([[0x68]], r)) ∧ r.m_Eof = true) ∧
    Returns (fun n => filter storedZlib.readGzip n (.header 1) cutFile 16) (.ok [0x68]) := by
  obtain ⟨r, hr⟩ : ∃ r : FilterReader ReadGzip,
      r = ⟨.length 2, { reader := { data := [], isEof := true }, size := 16 }, true⟩ := ⟨_, rfl⟩
  refine ⟨storedZlib_inflates, cutFile_endsInside, ⟨r, ?_, by rw [hr]⟩, ?_⟩
  · have hread : Returns (fun n =>
        (FilterReader.construct (.header 1) cutFile [] false 16).tryRead storedZlib.readGzip n 8)
          (.ok ([0x68], r)) := by
      rw [hr]
      exact FilterReader.returns_tryRead rfl (returns_of_loop (n := 2) rfl)
    exact hread.bind ((returns_some _).map _)
  · have hinput : Returns (fun n => loop (fun _ t =>
        some (inputTurn storedZlib.readGzip 16 16 t)) n (.header 1, cutFile, []))
          (.ok (.length 2, [0x68])) := returns_of_loop (n := 2) rfl
    have hfinish : Returns (fun n => loop (fun _ t =>
        some (finishTurn storedZlib.readGzip 16 t)) n (.length 2, [0x68])) (.ok [0x68]) :=
      returns_of_loop (n := 1) rfl
    exact hinput.bind hfinish

/-- The same file with other sizes. -/
theorem cutFile_prefix :
    (∃ pieces r, Returns (fun n =>
        (FilterReader.construct (.header 1) cutFile [1] true 3).tryReads storedZlib.readGzip n
          [1, 2]) (.ok (pieces, r)) ∧ pieces.flatten <+: [0x68, 0x69] ∧ r.m_Eof = true) ∧
    ∃ out, Returns (fun n => filter storedZlib.readGzip n (.header 1) cutFile 2) (.ok out) ∧
      out <+: [0x68, 0x69] := by
  obtain ⟨hmembers, hcut, -⟩ := cutFile_endsInside
  obtain ⟨hreads, hfilter⟩ := cut_file storedZlib_inflates hmembers hcut
  obtain ⟨pieces, r, hreturns, hpieces, hend⟩ := hreads [1] true 3 [1, 2] (by decide)
  exact ⟨⟨pieces, r, hreturns, hpieces, hend (by decide)⟩, hfilter 2 (by decide)⟩

end Stuff.Archive
