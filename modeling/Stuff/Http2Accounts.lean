import Stuff.Http2Output
import Mathlib.Algebra.BigOperators.Group.List.Basic

/-!
# Adding up frames

Flow control counts the payload bytes of DATA frames, over the connection and
per stream, and the increments of window updates. An account is a weight on
frames summed over a list of frames; only the weights are specific.
-/
namespace Stuff.Http2Accounts
open MachineWords Http2Frames Http2Output

/-- The sum of a weight over frames. -/
def total (w : Frame → ℕ) (fs : List Frame) : ℕ := (fs.map w).sum

@[simp] theorem total_nil (w : Frame → ℕ) : total w [] = 0 := rfl

@[simp] theorem total_cons (w : Frame → ℕ) (f : Frame) (fs : List Frame) :
    total w (f :: fs) = w f + total w fs := by simp [total]

@[simp] theorem total_append (w : Frame → ℕ) (fs gs : List Frame) :
    total w (fs ++ gs) = total w fs + total w gs := by simp [total]

theorem total_eq_zero {w : Frame → ℕ} {fs : List Frame} (h : ∀ f ∈ fs, w f = 0) :
    total w fs = 0 := by
  induction fs with
  | nil => rfl
  | cons f fs ih =>
      rw [total_cons, h f (by simp), ih (fun g hg => h g (by simp [hg]))]

theorem total_eq_length {w : Frame → ℕ} {fs : List Frame}
    (h : ∀ f ∈ fs, w f = f.payload.length) :
    total w fs = (fs.flatMap Frame.payload).length := by
  induction fs with
  | nil => rfl
  | cons f fs ih =>
      rw [total_cons, h f (by simp), ih (fun g hg => h g (by simp [hg])), List.flatMap_cons,
        List.length_append]

theorem le_total (w : Frame → ℕ) {f : Frame} {fs : List Frame} (h : f ∈ fs) :
    w f ≤ total w fs := by
  obtain ⟨pre, post, rfl⟩ := List.append_of_mem h
  rw [total_append, total_cons]
  omega

/-- Payload of a DATA frame, whatever its stream. -/
def dataAny (f : Frame) : ℕ := if f.header.type = .data then f.payload.length else 0

/-- Payload of a DATA frame of one stream. -/
def dataOn (id : UInt32) (f : Frame) : ℕ :=
  if f.header.type = .data ∧ f.stream = id then f.payload.length else 0

@[simp] theorem dataAny_headers (flags : UInt8) (id : UInt32) (block : Bytes) :
    dataAny (Frame.make .headers flags id block) = 0 := rfl

@[simp] theorem dataOn_headers (k : UInt32) (flags : UInt8) (id : UInt32) (block : Bytes) :
    dataOn k (Frame.make .headers flags id block) = 0 := rfl

theorem chunkFrames_isData (id : UInt32) (d : Info) (len : ℕ) :
    ∀ f ∈ Output.chunkFrames id d len, IsData id f :=
  dataFrames_isData _ _ _ _

theorem chunkFrames_payload (id : UInt32) (d : Info) (len : ℕ) :
    (Output.chunkFrames id d len).flatMap Frame.payload = d.body.take len :=
  dataFrames_payload _ _ _ _ le_rfl

theorem total_dataAny_chunk (id : UInt32) {d : Info} {len : ℕ} (h : len ≤ d.body.length) :
    total dataAny (Output.chunkFrames id d len) = len := by
  rw [total_eq_length, chunkFrames_payload, List.length_take, Nat.min_eq_left h]
  intro f hf
  rw [dataAny, if_pos (chunkFrames_isData id d len f hf).1]

theorem total_dataOn_chunk (k id : UInt32) {d : Info} {len : ℕ} (h : len ≤ d.body.length) :
    total (dataOn k) (Output.chunkFrames id d len) = if id = k then len else 0 := by
  split_ifs with hk
  · rw [total_eq_length, chunkFrames_payload, List.length_take, Nat.min_eq_left h]
    intro f hf
    have hf := chunkFrames_isData id d len f hf
    rw [dataOn, if_pos ⟨hf.1, hf.2.1.trans hk⟩]
  · apply total_eq_zero
    intro f hf
    have hf := chunkFrames_isData id d len f hf
    rw [dataOn, if_neg]
    rintro ⟨-, hs⟩
    exact hk (hf.2.1.symm.trans hs)

end Stuff.Http2Accounts
