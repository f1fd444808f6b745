import Stuff.MachineWords

/-!
# Texts in SQL

The comparisons of a column whose collation gives each byte a weight: `=` goes by the
weights and does not mind blanks at the end, `LIKE` goes by the weights of a pattern,
byte by byte.
-/
namespace Stuff.SqlText

open MachineWords

/-- The key by which a text is compared. -/
def sortKey (weight : UInt8 → UInt8) (text : Bytes) : Bytes :=
  (text.reverse.dropWhile (· = 0x20)).reverse.map weight

inductive Token
  | any
  | one
  | byte (c : UInt8)
deriving DecidableEq, Repr

/-- `%` stands for any text, `_` for any byte. -/
def token (c : UInt8) : Token :=
  if c = 0x25 then .any else if c = 0x5f then .one else .byte c

/-- A pattern, in which `\` takes what follows as it is. -/
def tokens : Bytes → List Token
  | [] => []
  | [c] => [token c]
  | c :: d :: p => if c = 0x5c then .byte d :: tokens p else token c :: tokens (d :: p)

def matchTokens (weight : UInt8 → UInt8) : List Token → Bytes → Bool
  | [], text => text.isEmpty
  | .any :: p, text => text.tails.any (matchTokens weight p)
  | .one :: p, text => match text with
      | [] => false
      | _ :: text => matchTokens weight p text
  | .byte c :: p, text => match text with
      | [] => false
      | x :: text => weight x = weight c && matchTokens weight p text

/-- `text LIKE pattern` -/
def like (weight : UInt8 → UInt8) (text pattern : Bytes) : Bool :=
  matchTokens weight (tokens pattern) text

/-- What a `%` at the end has matched may be longer. -/
theorem matchTokens_append {weight : UInt8 → UInt8} {p : List Token} {text : Bytes}
    (h : matchTokens weight (p ++ [.any]) text = true) (rest : Bytes) :
    matchTokens weight (p ++ [.any]) (text ++ rest) = true := by
  induction p generalizing text with
  | nil =>
      simp only [List.nil_append, matchTokens, List.any_eq_true, List.mem_tails]
      exact ⟨[], List.nil_suffix, rfl⟩
  | cons tok p ih =>
      cases tok with
      | any =>
          simp only [List.cons_append, matchTokens, List.any_eq_true, List.mem_tails] at h ⊢
          obtain ⟨tail, ⟨pre, rfl⟩, htail⟩ := h
          exact ⟨tail ++ rest, ⟨pre, (List.append_assoc _ _ _).symm⟩, ih htail⟩
      | one =>
          cases text with
          | nil => cases h
          | cons x text => exact ih h
      | byte c =>
          cases text with
          | nil => cases h
          | cons x text =>
              simp only [List.cons_append, matchTokens, Bool.and_eq_true] at h ⊢
              exact ⟨h.1, ih h.2⟩

/-- Only the weights matter. -/
theorem matchTokens_congr {weight : UInt8 → UInt8} {p : List Token} {x y : Bytes}
    (hxy : x.map weight = y.map weight) (h : matchTokens weight p x = true) :
    matchTokens weight p y = true := by
  induction p generalizing x y with
  | nil =>
      simp only [matchTokens, List.isEmpty_iff] at h ⊢
      subst h
      exact List.map_eq_nil_iff.mp hxy.symm
  | cons tok p ih =>
      cases tok with
      | any =>
          simp only [matchTokens, List.any_eq_true, List.mem_tails] at h ⊢
          obtain ⟨tail, ⟨pre, rfl⟩, htail⟩ := h
          rw [List.map_append] at hxy
          obtain ⟨pre', tail', rfl, -, hmap⟩ := List.map_eq_append_iff.mp hxy.symm
          exact ⟨tail', ⟨pre', rfl⟩, ih hmap.symm htail⟩
      | one =>
          cases x with
          | nil => cases h
          | cons a x =>
              cases y with
              | nil => cases hxy
              | cons b y => exact ih (List.cons.inj hxy).2 h
      | byte c =>
          cases x with
          | nil => cases h
          | cons a x =>
              cases y with
              | nil => cases hxy
              | cons b y =>
                  simp only [matchTokens, Bool.and_eq_true, decide_eq_true_eq] at h ⊢
                  obtain ⟨hab, hmap⟩ := List.cons.inj hxy
                  exact ⟨hab.symm.trans h.1, ih hmap h.2⟩

theorem tokens_append_any (p : Bytes) {c : UInt8} (hc : c ≠ 0x5c) :
    ∃ q, tokens (p ++ [c, 0x25]) = q ++ [.any] := by
  have hend : tokens [c, 0x25] = [token c] ++ [.any] := by
    rw [tokens, if_neg hc]
    rfl
  induction p using tokens.induct with
  | case1 => exact ⟨_, hend⟩
  | case2 a =>
      rw [List.cons_append, List.nil_append, tokens]
      split
      case isTrue => exact ⟨[.byte c], rfl⟩
      case isFalse => exact ⟨[token a, token c], congrArg (token a :: ·) hend⟩
  | case3 d p ih =>
      obtain ⟨q, hq⟩ := ih
      exact ⟨.byte d :: q, by simp [tokens, hq]⟩
  | case4 a d p hne ih =>
      obtain ⟨q, hq⟩ := ih
      refine ⟨token a :: q, ?_⟩
      rw [List.cons_append, List.cons_append, tokens, if_neg hne]
      exact congrArg (token a :: ·) hq

/-- A pattern that ends with `/%` matches the longer text, also in other letters. -/
theorem like_append {weight : UInt8 → UInt8} {x y p : Bytes} {c : UInt8} (hc : c ≠ 0x5c)
    (hxy : x.map weight = y.map weight) (h : like weight x (p ++ [c, 0x25]) = true)
    (rest : Bytes) : like weight (y ++ rest) (p ++ [c, 0x25]) = true := by
  obtain ⟨q, hq⟩ := tokens_append_any p hc
  simp only [like, hq] at h ⊢
  exact matchTokens_append (matchTokens_congr hxy h) rest

/-- A text without wildcards and escapes. -/
def Plain (p : Bytes) : Prop := ∀ c ∈ p, c ≠ 0x25 ∧ c ≠ 0x5f ∧ c ≠ 0x5c

theorem tokens_plain {p : Bytes} (hp : Plain p) :
    tokens (p ++ [0x25]) = p.map Token.byte ++ [.any] := by
  have hbyte : ∀ {c : UInt8}, c ≠ 0x25 → c ≠ 0x5f → token c = .byte c := by
    intro c hany hone
    rw [token, if_neg hany, if_neg hone]
  induction p with
  | nil => rfl
  | cons c p ih =>
      obtain ⟨hc, hp⟩ := List.forall_mem_cons.mp hp
      rw [List.cons_append]
      cases hrest : p ++ [0x25] with
      | nil => simp at hrest
      | cons d q =>
          rw [tokens, if_neg hc.2.2, hbyte hc.1 hc.2.1, ← hrest, ih hp]
          rfl

theorem matchTokens_any (weight : UInt8 → UInt8) (text : Bytes) :
    matchTokens weight [.any] text = true := by
  simp only [matchTokens, List.any_eq_true, List.mem_tails]
  exact ⟨[], List.nil_suffix, rfl⟩

/-- A plain text with a `%` behind it matches what begins with it. -/
theorem like_percent_iff {weight : UInt8 → UInt8} {p : Bytes} (hp : Plain p) (text : Bytes) :
    like weight text (p ++ [0x25]) = true ↔ p.map weight <+: text.map weight := by
  rw [like, tokens_plain hp]
  clear hp
  induction p generalizing text with
  | nil => exact iff_of_true (matchTokens_any weight text) List.nil_prefix
  | cons c p ih =>
      cases text with
      | nil => simp [matchTokens]
      | cons x text =>
          rw [List.map_cons, List.map_cons, List.map_cons, List.cons_prefix_cons, List.cons_append,
            matchTokens, Bool.and_eq_true, decide_eq_true_eq, ih, eq_comm]

end Stuff.SqlText
