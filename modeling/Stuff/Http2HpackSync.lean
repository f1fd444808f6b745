import Stuff.CoderSync
import Stuff.Http2Hpack

/-!
# What decompression makes of a compressed block

The loop of `Inflate` calls the library until the block is used up. `Inflates`
and `InflateFails` are the two ways such a series of calls can go, whatever
becomes of the pairs; the loop hands the pairs on to the message, which may
refuse one of them. A `Codec` is a library whose compressor and decompressor
stay in step.
-/
namespace Stuff.Http2HpackSync
open MachineWords Http2Frames Http2Hpack CoderSync

variable {N : Nghttp2} {M : Type}

/-- The decompressor behind a call. -/
def afterCall (r : Inflated N.Inflater) : N.Inflater :=
  if r.final then N.endHeaders r.next else r.next

/-- The calls of `nghttp2_hd_inflate_hd2` that use up a block and the pairs they
emit. -/
inductive Inflates : N.Inflater → Bytes → List Pair → N.Inflater → Prop
  | done (i : N.Inflater) : Inflates i [] [] i
  | call {i i' : N.Inflater} {bs : Bytes} {ps : List Pair} {r : Inflated N.Inflater}
      (hne : bs ≠ []) (hr : N.inflateHd i bs = some r)
      (h : Inflates (afterCall r) (bs.drop r.used) ps i') :
      Inflates i bs (r.emit.toList ++ ps) i'

/-- The calls up to one that fails. -/
inductive InflateFails : N.Inflater → Bytes → Prop
  | here {i : N.Inflater} {bs : Bytes} (hne : bs ≠ []) (hr : N.inflateHd i bs = none) :
      InflateFails i bs
  | later {i : N.Inflater} {bs : Bytes} {r : Inflated N.Inflater} (hne : bs ≠ [])
      (hr : N.inflateHd i bs = some r) (h : InflateFails (afterCall r) (bs.drop r.used)) :
      InflateFails i bs

/-- The library's two halves, which start in step. -/
structure Codec (N : Nghttp2) extends InStep N.deflateHd (Inflates (N := N)) InflateFails where
  start : Sync N.deflateNew N.inflateNew

/-- All pairs of a block, given to a message. -/
def setHeaders (A : Messages M) (m : M) (ps : List Pair) : Except String M :=
  ps.foldlM (fun m p => A.setHeader m p.1 p.2) m

/-- The message of a block and a body. -/
def filled (A : Messages M) (id : UInt32) (ps : List Pair) (body : Bytes) : Except String M :=
  (setHeaders A (A.newMessage id) ps).map fun m => A.appendBody m body

/-- A body is a string that grows. -/
structure Appends (A : Messages M) : Prop where
  nil : ∀ m, A.appendBody m [] = m
  append : ∀ m a b, A.appendBody (A.appendBody m a) b = A.appendBody m (a ++ b)

theorem drop_le_fuel (N : Nghttp2) {i : N.Inflater} {bs : Bytes} {r : Inflated N.Inflater}
    (hne : bs ≠ []) (hr : N.inflateHd i bs = some r) {fuel : ℕ} (hf : bs.length ≤ fuel + 1) :
    (bs.drop r.used).length ≤ fuel := by
  have hpos := N.used_pos i bs r hr hne
  rw [List.length_drop]
  omega

section Loop
variable (A : Messages M)

theorem inflateLoop_call {i : N.Inflater} {bs : Bytes} {r : Inflated N.Inflater} (hne : bs ≠ [])
    (hr : N.inflateHd i bs = some r) (fuel : ℕ) (m : M) :
    (∀ m', setHeaders A m r.emit.toList = .ok m' →
      inflateLoop A (fuel + 1) i bs m =
        inflateLoop A fuel (afterCall r) (bs.drop r.used) m') ∧
    ∀ e, setHeaders A m r.emit.toList = .error e →
      (inflateLoop A (fuel + 1) i bs m).exit = .thrown e := by
  have hempty : bs.isEmpty = false := by simpa using hne
  cases hemit : r.emit with
  | none => simp [inflateLoop, hempty, hr, hemit, setHeaders, afterCall, pure, Except.pure]
  | some p =>
      cases hset : A.setHeader m p.1 p.2 <;>
        simp [inflateLoop, hempty, hr, hemit, setHeaders, afterCall, hset, pure, Except.pure,
          bind, Except.bind]

/-- A block that can be read is read to its end, unless the message refuses a
pair. -/
theorem inflateLoop_inflates {i i' : N.Inflater} {bs : Bytes} {ps : List Pair}
    (h : Inflates i bs ps i') {fuel : ℕ} (hf : bs.length ≤ fuel) (m : M) :
    (∀ m', setHeaders A m ps = .ok m' → inflateLoop A fuel i bs m = ⟨.done, i', m'⟩) ∧
    ∀ e, setHeaders A m ps = .error e → (inflateLoop A fuel i bs m).exit = .thrown e := by
  induction h generalizing fuel m with
  | done i =>
      constructor
      · intro m' hm
        cases hm
        cases fuel <;> rfl
      · intro e he
        cases he
  | @call i i' bs ps r hne hr h ih =>
      cases fuel with
      | zero => exact absurd (List.length_eq_zero_iff.mp (Nat.le_zero.mp hf)) hne
      | succ fuel =>
          obtain ⟨hok, herror⟩ := inflateLoop_call A hne hr fuel m
          have hsplit : setHeaders A m (r.emit.toList ++ ps) =
              setHeaders A m r.emit.toList >>= fun m' => setHeaders A m' ps :=
            List.foldlM_append
          rw [hsplit]
          cases hset : setHeaders A m r.emit.toList with
          | error e =>
              constructor
              · intro m' hm
                cases hm
              · intro e' he
                cases he
                exact herror e hset
          | ok m₁ =>
              rw [hok m₁ hset]
              exact ih (drop_le_fuel N hne hr hf) m₁

theorem inflateLoop_fails {i : N.Inflater} {bs : Bytes} (h : InflateFails i bs) {fuel : ℕ}
    (hf : bs.length ≤ fuel) (m : M) : (inflateLoop A fuel i bs m).exit ≠ .done := by
  induction h generalizing fuel m with
  | @here i bs hne hr =>
      cases fuel with
      | zero => exact absurd (List.length_eq_zero_iff.mp (Nat.le_zero.mp hf)) hne
      | succ fuel =>
          have hempty : bs.isEmpty = false := by simpa using hne
          simp [inflateLoop, hempty, hr]
  | @later i bs r hne hr h ih =>
      cases fuel with
      | zero => exact absurd (List.length_eq_zero_iff.mp (Nat.le_zero.mp hf)) hne
      | succ fuel =>
          obtain ⟨hok, herror⟩ := inflateLoop_call A hne hr fuel m
          cases hset : setHeaders A m r.emit.toList with
          | error e =>
              rw [herror e hset]
              simp
          | ok m₁ =>
              rw [hok m₁ hset]
              exact ih (drop_le_fuel N hne hr hf) m₁

end Loop

/-- Without padding and priority the block is the whole payload. -/
theorem headerBlock_plain {h : Header} (hpad : h.has Flags.padded = false)
    (hprio : h.has Flags.priority = false) {aData : Bytes} (hlen : aData.length < 2 ^ 24) :
    headerBlock h aData = .ok (some aData) := by
  unfold headerBlock
  rw [unpadded_eq h hlen]
  simp [prefixSize, padLength, hpad, hprio, bind, Except.bind, pure, Except.pure]

/-! ## A library that reads what it writes

Pairs of the static table are written as their index, all others as literals
without indexing whose two lengths take a byte each. Longer strings are left
out: the compressor fails on them. -/

def plainEncode (p : Pair) : Option Bytes :=
  match staticTable.lookup p with
  | some index => some [index]
  | none =>
      if p.1.length < 127 ∧ p.2.length < 127 then
        some (0x00 :: UInt8.ofNat p.1.length :: (p.1 ++ UInt8.ofNat p.2.length :: p.2))
      else none

def plainBlock : List Pair → Option Bytes
  | [] => some []
  | p :: ps =>
      match plainEncode p, plainBlock ps with
      | some a, some b => some (a ++ b)
      | _, _ => none

/-- A literal behind its first byte, and how many bytes it takes. -/
def plainLiteral : Bytes → Option (Pair × ℕ)
  | [] => none
  | n :: rest =>
      match rest.drop n.toNat with
      | [] => none
      | v :: value =>
          if value.length < v.toNat then none
          else some ((rest.take n.toNat, value.take v.toNat), n.toNat + v.toNat + 2)

def plainNghttp2 : Nghttp2 where
  Deflater := Unit
  Inflater := Unit
  deflateNew := ()
  inflateNew := ()
  deflateHd _ pairs := (plainBlock pairs, ())
  inflateHd _ bs :=
    match bs with
    | [] => none
    | b :: rest =>
        if b = 0 then (plainLiteral rest).map fun r => ⟨r.2 + 1, some r.1, false, ()⟩
        else (staticTable.find? fun e => e.2 = b).map fun e => ⟨1, some e.1, false, ()⟩
  endHeaders i := i
  used_pos := by
    intro i bs r h hne
    cases bs with
    | nil => exact absurd rfl hne
    | cons b rest =>
        dsimp only at h
        split_ifs at h
        · obtain ⟨l, -, rfl⟩ := Option.map_eq_some_iff.mp h
          exact Nat.succ_pos _
        · obtain ⟨e, -, rfl⟩ := Option.map_eq_some_iff.mp h
          exact Nat.one_pos

theorem staticTable_found {p : Pair} {index : UInt8} (h : staticTable.lookup p = some index) :
    index ≠ 0 ∧ staticTable.find? (fun e => e.2 = index) = some (p, index) := by
  have hall : ∀ e ∈ staticTable, e.2 ≠ 0 ∧ staticTable.find? (fun e' => e'.2 = e.2) = some e := by
    decide
  obtain ⟨l₁, l₂, htable, -⟩ := List.lookup_eq_some_iff.mp h
  exact hall (p, index) (by rw [htable]; simp)

theorem plainLiteral_write (name value rest : Bytes) (hn : name.length < 127)
    (hv : value.length < 127) :
    plainLiteral (UInt8.ofNat name.length :: (name ++ UInt8.ofNat value.length :: value) ++ rest) =
      some ((name, value), name.length + value.length + 2) := by
  have hname : (UInt8.ofNat name.length).toNat = name.length :=
    UInt8.toNat_ofNat_of_lt' (by simp [UInt8.size]; omega)
  have hvalue : (UInt8.ofNat value.length).toNat = value.length :=
    UInt8.toNat_ofNat_of_lt' (by simp [UInt8.size]; omega)
  simp [plainLiteral, hname, hvalue]

/-- One call reads one pair. -/
theorem plain_reads {p : Pair} {a : Bytes} (h : plainEncode p = some a) (rest : Bytes) :
    plainNghttp2.inflateHd () (a ++ rest) = some ⟨a.length, some p, false, ()⟩ := by
  unfold plainEncode at h
  cases hlookup : staticTable.lookup p with
  | some index =>
      rw [hlookup] at h
      cases h
      obtain ⟨hne, hfound⟩ := staticTable_found hlookup
      simp [plainNghttp2, hne, hfound]
  | none =>
      rw [hlookup] at h
      dsimp only at h
      split_ifs at h with hlen
      cases h
      have hliteral := plainLiteral_write p.1 p.2 rest hlen.1 hlen.2
      simp only [plainNghttp2, List.cons_append, if_true]
      rw [List.cons_append] at hliteral
      rw [hliteral]
      simp
      omega

theorem plain_inflates {ps : List Pair} {block : Bytes} (h : plainBlock ps = some block) :
    Inflates (N := plainNghttp2) () block ps () := by
  induction ps generalizing block with
  | nil =>
      cases h
      exact Inflates.done (N := plainNghttp2) ()
  | cons p ps ih =>
      unfold plainBlock at h
      cases ha : plainEncode p with
      | none =>
          rw [ha] at h
          cases h
      | some a =>
          cases hb : plainBlock ps with
          | none =>
              rw [ha, hb] at h
              cases h
          | some b =>
              rw [ha, hb] at h
              cases h
              have hne : a ++ b ≠ [] := by
                have hread := plain_reads ha b
                intro hnil
                rw [hnil] at hread
                cases hread
              refine .call hne (plain_reads ha b) ?_
              rw [List.drop_left]
              exact ih hb

def plainCodec : Codec plainNghttp2 where
  Sync _ _ := True
  Readable _ := True
  failed _ _ := trivial
  written := by
    intro s t a b s' _ hw _
    exact ⟨(), plain_inflates (congrArg Prod.fst hw), trivial⟩
  unreadable _ _ h := absurd trivial h
  start := trivial

theorem keptMessages_appends : Appends keptMessages where
  nil _ := by simp [keptMessages]
  append _ _ _ := by simp [keptMessages]

end Stuff.Http2HpackSync
