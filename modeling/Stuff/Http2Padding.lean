import Stuff.Http2Parser

/-!
# Padding

A frame with the flag PADDED has the length of its padding in front, and the padding behind what it
carries. The decompression of headers takes both away; the body of a message gets them as well.
-/
namespace Stuff.Http2Padding
open MachineWords Http2Frames Http2Hpack Http2Parser Main

variable {N : Nghttp2} {M : Type}

/-- The payload of a padded frame: the pad length, the priority fields of HEADERS, what is carried,
and the padding. -/
def Carries (h : Header) (aData block : Bytes) : Prop :=
  ∃ pad priority padding, aData = pad :: (priority ++ block ++ padding) ∧
    priority.length = (if h.type = .headers ∧ h.has Flags.priority = true then 5 else 0) ∧
    padding.length = pad.toNat

/-- The decompression is given what the frame carries; when the padding is too long, there is an
exception, and neither the inflater nor the message has changed. -/
def HeadersRight (A : Messages M) (m : Main N M) : Prop :=
  (∀ block, Carries m.header m.body block →
    m.headersInflated A =
      inflateLoop A block.length m.inflater block (m.headersMessage A).1) ∧
  ((∀ block, ¬Carries m.header m.body block) → ∃ what,
    m.headersInflated A = ⟨.thrown what, m.inflater, (m.headersMessage A).1⟩ ∧
      (m.processHeaders A).exit = .thrown what)

/-- The message of an open stream is given what the frame carries, and when the padding is too long,
there is an exception and nothing else. -/
def DataRight (A : Messages M) (debug : Bool) (m : Main N M) : Prop :=
  ∀ (d : Info M) (x : M), m.info[m.header.stream]? = some d → d.message = some x →
    m.body.length ≤ m.budget.toNat → m.body.length ≤ d.budget.toNat →
    (∀ block, Carries m.header m.body block →
      m.processData A debug = m.account m.header.stream d (A.appendBody x block)) ∧
    ((∀ block, ¬Carries m.header m.body block) → ∃ what,
      m.processData A debug = m.throws what)

/-- A frame with this header and payload is treated right, whatever the parser was given before.
Frames of stream 0 are refused. -/
def PaddingRight (h : Header) (aData : Bytes) : Prop :=
  ∀ (N : Nghttp2) (M : Type) (A : Messages M) (debug : Bool) (m : Main N M),
    m.header = h → m.body = aData → h.stream ≠ 0 →
    if h.type = .data then DataRight A debug m else HeadersRight A m

/-! ## HEADERS -/

section
variable {h : Header} {aData : Bytes}

theorem carries_headers_iff (htype : h.type = .headers) (hpadded : h.has Flags.padded = true)
    (hlen : aData.length < 2 ^ 24) (block : Bytes) :
    Carries h aData block ↔ headerBlock h aData = .ok (some block) := by
  obtain ⟨n, hn⟩ : ∃ n, n = if h.has Flags.priority = true then 5 else 0 := ⟨_, rfl⟩
  have hbefore : prefixSize h = n + 1 := by
    rw [prefixSize, if_pos hpadded, ← hn, Nat.add_comm]
  rw [Carries, if_congr (and_iff_right htype) rfl rfl, ← hn, headerBlock, unpadded_eq h hlen]
  constructor
  · rintro ⟨pad, priority, padding, rfl, hpriority, hpadding⟩
    have hpad : padLength h (pad :: (priority ++ block ++ padding)) = pad.toNat := by
      simp [padLength, hpadded]
    have hdrop : (pad :: (priority ++ block ++ padding)).drop (prefixSize h) =
        block ++ padding := by
      rw [hbefore, ← hpriority, List.drop_succ_cons, List.append_assoc, List.drop_left]
    have hfixed : prefixSize h ≤ (pad :: (priority ++ block ++ padding)).length := by
      simp only [hbefore, ← hpriority, List.length_cons, List.length_append]
      omega
    rw [if_pos hfixed, hpad, hdrop]
    simp [bind, Except.bind, pure, Except.pure, hpadding]
  · intro hblock
    split_ifs at hblock with hfixed
    · simp only [bind, Except.bind, pure, Except.pure] at hblock
      split_ifs at hblock with hpad
      · have hsome := Option.some.inj (Except.ok.inj hblock)
        cases aData with
        | nil =>
            rw [hbefore] at hfixed
            simp at hfixed
        | cons pad rest =>
            have hpadLength : padLength h (pad :: rest) = pad.toNat := by
              simp [padLength, hpadded]
            rw [hbefore, List.length_cons] at hfixed
            rw [hpadLength, hbefore, List.drop_succ_cons] at hpad hsome
            refine ⟨pad, rest.take n, (rest.drop n).drop ((rest.drop n).length - pad.toNat), ?_, ?_,
              ?_⟩
            · rw [← hsome, List.append_assoc, List.take_append_drop, List.take_append_drop]
            · rw [List.length_take]
              omega
            · rw [List.length_drop]
              omega
      · cases hblock
    · cases hblock

/-- What the decompression makes of the frame. -/
theorem headersRight_iff (htype : h.type = .headers) (hpadded : h.has Flags.padded = true)
    (hlen : aData.length < 2 ^ 24) (A : Messages M) {m : Main N M} (hheader : m.header = h)
    (hbody : m.body = aData) (hid : h.stream ≠ 0) :
    HeadersRight A m ↔ ¬Overpadded h aData := by
  subst hheader
  subst hbody
  have hcarries := carries_headers_iff htype hpadded hlen
  rw [← headerBlock_eq_none_iff _ hlen]
  have hexit := processHeaders_exit A m
  rw [if_neg hid] at hexit
  unfold HeadersRight
  rw [hexit]
  unfold headersInflated inflateFrame
  cases hblock : headerBlock m.header m.body with
  | error what =>
      refine iff_of_true ⟨?_, fun _ => ⟨what, rfl, rfl⟩⟩ (by simp)
      intro block hc
      rw [hcarries, hblock] at hc
      cases hc
  | ok found =>
      cases found with
      | none =>
          refine iff_of_false ?_ (by simp)
          rintro ⟨-, herror⟩
          obtain ⟨what, hthrown, -⟩ := herror fun block hc => by
            rw [hcarries, hblock] at hc
            cases hc
          exact absurd (congrArg InflateResult.exit hthrown) (by simp)
      | some block =>
          refine iff_of_true ⟨?_, ?_⟩ (by simp)
          · intro block' hc
            rw [hcarries, hblock] at hc
            cases hc
            rfl
          · intro hnone
            exact absurd ((hcarries block).mpr hblock) (hnone block)

end

/-! ## DATA -/

theorem account_injective (m : Main N M) (id : UInt32) (d : Info M) :
    Function.Injective (m.account id d) := by
  intro x y hxy
  cases hend : m.header.has Flags.endStream with
  | true =>
      have hcalls := congrArg Processed.calls hxy
      rw [account_calls, account_calls, List.append_right_inj, hend] at hcalls
      simpa using hcalls
  | false =>
      have hinfo := congrArg (fun r => r.main.info[id]?) hxy
      simp only [account_info, if_true, hend] at hinfo
      simpa using hinfo

/-- A stream that is open, with windows as large as can be. -/
def opened (h : Header) (aData : Bytes) : Main staticNghttp2 (List Pair × Bytes) where
  stage := .body
  header := h
  body := aData
  info := ({} : Std.TreeMap UInt32 (Info (List Pair × Bytes))).insert h.stream
    { message := some ([], []), budget := 0xFFFFFFFF }
  inflater := ()
  budget := 0xFFFFFFFF

/-- What is carried is shorter than the payload. -/
theorem Carries.ne {h : Header} {aData block : Bytes} (hc : Carries h aData block) :
    block ≠ aData := by
  rintro rfl
  obtain ⟨pad, priority, padding, heq, -⟩ := hc
  have hlen := congrArg List.length heq
  simp only [List.length_cons, List.length_append] at hlen
  omega

theorem not_dataRight {h : Header} {aData : Bytes} (hid : h.stream ≠ 0)
    (hlen : aData.length < 2 ^ 24) (debug : Bool) :
    ¬DataRight keptMessages debug (opened h aData) := by
  intro hright
  have hinfo : (opened h aData).info[h.stream]? =
      some { message := some ([], []), budget := 0xFFFFFFFF } := by
    simp [opened]
  have hwindow : aData.length ≤ (0xFFFFFFFF : UInt32).toNat := by
    have hmax : (0xFFFFFFFF : UInt32).toNat = 4294967295 := rfl
    omega
  have hgiven := processData_eq keptMessages debug (opened h aData) hid hinfo rfl hwindow hwindow
  obtain ⟨hblock, hlong⟩ := hright _ _ hinfo rfl hwindow hwindow
  by_cases hc : ∃ block, Carries h aData block
  · obtain ⟨block, hc⟩ := hc
    have hsame := account_injective _ _ _ ((hblock block hc).symm.trans hgiven)
    have heq : block = aData := by simpa [keptMessages, opened] using hsame
    exact hc.ne heq
  · obtain ⟨what, hthrown⟩ := hlong (not_exists.mp hc)
    rw [hgiven] at hthrown
    have hexit := congrArg Processed.exit hthrown
    simp [throws] at hexit

/-- Padding is treated right for HEADERS whose padding is not too long, and never for DATA. -/
theorem paddingRight_iff {h : Header} {aData : Bytes} (htype : h.type = .headers ∨ h.type = .data)
    (hpadded : h.has Flags.padded = true) (hsize : aData.length = h.size.toNat) :
    PaddingRight h aData ↔ h.stream = 0 ∨ h.type = .headers ∧ ¬Overpadded h aData := by
  have hlen : aData.length < 2 ^ 24 := hsize ▸ h.size.isLt
  by_cases hid : h.stream = 0
  · exact iff_of_true (fun _ _ _ _ _ _ _ hne => absurd hid hne) (.inl hid)
  · rw [or_iff_right hid]
    rcases htype with htype | htype
    · rw [and_iff_right htype]
      constructor
      · intro hright
        have hheaders := hright _ _ keptMessages true (opened h aData) rfl rfl hid
        rw [if_neg (by simp [htype])] at hheaders
        exact (headersRight_iff htype hpadded hlen keptMessages rfl rfl hid).mp hheaders
      · intro hpad N M A debug m hheader hbody _
        rw [if_neg (by simp [htype])]
        exact (headersRight_iff htype hpadded hlen A hheader hbody hid).mpr hpad
    · refine iff_of_false ?_ (by simp [htype])
      intro hright
      have hdata := hright _ _ keptMessages true (opened h aData) rfl rfl hid
      rw [if_pos htype] at hdata
      exact not_dataRight hid hlen true hdata

/-- Priority fields in front of one byte of a header block, and two bytes of padding. -/
theorem paddingRight_headers :
    PaddingRight ⟨9, .headers, 0x2c, 1⟩ [2, 0, 0, 0, 0, 0, 0x82, 0, 0] :=
  (paddingRight_iff (.inl rfl) (by decide) (by decide)).mpr (.inr ⟨rfl, by decide⟩)

/-- A message gets the pad length and the padding with its one byte; and the padding of HEADERS may
be longer than the frame. -/
theorem padding_delivered :
    ((opened ⟨3, .data, 0x9, 1⟩ [1, 65, 0]).processData keptMessages true).calls =
        [.processMessage 1 ([], [1, 65, 0])] ∧
      ¬PaddingRight ⟨3, .data, 0x9, 1⟩ [1, 65, 0] ∧
      ((opened ⟨1, .headers, 0xc, 1⟩ [1]).processHeaders keptMessages).exit = .undefined ∧
      ¬PaddingRight ⟨1, .headers, 0xc, 1⟩ [1] := by
  refine ⟨rfl, ?_, rfl, ?_⟩
  · intro hright
    have hdata := hright _ _ keptMessages true (opened _ _) rfl rfl (by decide)
    exact not_dataRight (by decide) (by decide) true hdata
  · intro hright
    have hheaders := hright _ _ keptMessages true (opened _ _) rfl rfl (by decide)
    have hpad := (headersRight_iff rfl (by decide) (by decide) keptMessages rfl rfl
      (by decide)).mp hheaders
    exact hpad (by decide)

end Stuff.Http2Padding
