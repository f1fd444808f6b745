import Stuff.ThreadsSafeQueueProgress

/-!
# Tasks that are worked off step by step

`Pipeline::Manager` has one queue of nodes, each with a task and its next step. The
handler makes the step and calls the task, which may ask for one more step; the
queue then gets a node with this step. If a step throws, the handler is called
again with the same node.
-/
namespace Stuff.ThreadsPipeline
open EventRuns Holders ThreadsSafeQueue

variable {τ : Type}

/-- Where `Manager::step` is with a node: before or in the step, in the call of the
task, or in this call after the request for the next step. -/
inductive Stage
  | step
  | operator
  | requested
deriving DecidableEq, Repr

/-- The steps of a task are numbered in the order of the requests; the first node has
none. -/
structure Node (τ : Type) where
  serial : ℕ
  task : τ
  step : Option ℕ := none
  stage : Stage := .step
deriving DecidableEq, Repr

/-- The fields of the class, the calls of `insert` that have a serial and are not in
the queue yet, and the history: tasks, steps requested, and steps that returned. -/
structure Manager (τ : Type) where
  queue : SafeQueueThread (Node τ)
  serial : ℕ := 0
  entering : List (Node τ) := []
  inserted : List τ := []
  produced : List (τ × ℕ) := []
  completed : List (τ × ℕ) := []

/-- The steps of one task. -/
def stepsOf [DecidableEq τ] (aTask : τ) (l : List (τ × ℕ)) : List ℕ :=
  (l.filter (·.1 = aTask)).map (·.2)

namespace Manager

def start (aCount : ℕ) : Manager τ where
  queue := { params := { retry := true }, workers := List.replicate aCount (.testing none) }

/-- The first half of `insert`. -/
def takeSerial (s : Manager τ) (aTask : τ) : Manager τ :=
  { s with
    serial := s.serial + 1
    entering := s.entering ++ [{ serial := s.serial, task := aTask }]
    inserted := s.inserted ++ [aTask] }

/-- The second half, in one of the threads that are between the two. -/
def enqueue (s : Manager τ) (k : ℕ) : Manager τ :=
  match s.entering[k]? with
  | some node => { s with queue := s.queue.insert node, entering := s.entering.eraseIdx k }
  | none => s

/-- The step returns, or there is none. -/
def stepReturns (s : Manager τ) (i : ℕ) : Manager τ :=
  match s.queue.workers[i]? with
  | some (.calling x) =>
      if x.value.stage = .step then
        { s with
          queue := s.queue.setPc i (.calling { x with value.stage := .operator })
          completed := s.completed ++ x.value.step.toList.map (x.value.task, ·) }
      else s
  | _ => s

def stepThrows (s : Manager τ) (i : ℕ) : Manager τ :=
  match s.queue.workers[i]? with
  | some (.calling x) =>
      if x.value.stage = .step ∧ x.value.step.isSome then
        { s with queue := s.queue.throws i x.value }
      else s
  | _ => s

/-- The task calls `aWrap`. -/
def requests [DecidableEq τ] (s : Manager τ) (i : ℕ) : Manager τ :=
  match s.queue.workers[i]? with
  | some (.calling x) =>
      if x.value.stage = .operator then
        let next := (stepsOf x.value.task s.produced).length
        { s with
          queue := (s.queue.setPc i (.calling { x with value.stage := .requested })).insert
            { serial := x.value.serial, task := x.value.task, step := some next }
          produced := s.produced ++ [(x.value.task, next)] }
      else s
  | _ => s

/-- The call of the task returns, and so does the handler. -/
def operatorReturns (s : Manager τ) (i : ℕ) : Manager τ :=
  match s.queue.workers[i]? with
  | some (.calling x) =>
      if x.value.stage = .step then s else { s with queue := s.queue.returns i }
  | _ => s

end Manager

inductive Event (τ : Type)
  | takeSerial (aTask : τ)
  | enqueue (k : ℕ)
  | loop (l : Loop)
  | stepReturns (i : ℕ)
  | stepThrows (i : ℕ)
  | requests (i : ℕ)
  | operatorReturns (i : ℕ)

def pipelineStep [DecidableEq τ] (s : Manager τ) : Event τ → Manager τ
  | .takeSerial aTask => s.takeSerial aTask
  | .enqueue k => s.enqueue k
  | .loop l => { s with queue := loopStep (priorityQueue Node.serial) (fun _ => true) s.queue l }
  | .stepReturns i => s.stepReturns i
  | .stepThrows i => s.stepThrows i
  | .requests i => s.requests i
  | .operatorReturns i => s.operatorReturns i

/-- The tasks are a set: none is inserted twice. -/
def Distinct (s : Manager τ) : Event τ → Prop
  | .takeSerial aTask => aTask ∉ s.inserted
  | _ => True

instance [DecidableEq τ] (s : Manager τ) : (e : Event τ) → Decidable (Distinct s e)
  | .takeSerial aTask => inferInstanceAs (Decidable (aTask ∉ s.inserted))
  | .enqueue _ => inferInstanceAs (Decidable True)
  | .loop _ => inferInstanceAs (Decidable True)
  | .stepReturns _ => inferInstanceAs (Decidable True)
  | .stepThrows _ => inferInstanceAs (Decidable True)
  | .requests _ => inferInstanceAs (Decidable True)
  | .operatorReturns _ => inferInstanceAs (Decidable True)

/-- The nodes in the queue and in the hands. -/
def nodes (s : Manager τ) : List (Node τ) := (pending Pc.hand s.queue).map Item.value

/-- Without those that have been followed by the next one. -/
def currentNodes (s : Manager τ) : List (Node τ) := (nodes s).filter (·.stage ≠ .requested)

/-! ## One chain for each task -/

/-- The nodes that stand for their task. -/
def chained (s : Manager τ) : List (Node τ) := s.entering ++ currentNodes s

/-- How many steps were produced and completed, where the node is. -/
def Node.Fits (x : Node τ) (produced completed : ℕ) : Prop :=
  match x.stage, x.step with
  | .step, none => produced = 0 ∧ completed = 0
  | .step, some k => k = completed ∧ produced = completed + 1
  | .operator, _ => produced = completed
  | .requested, _ => True

/-- The last step that was produced may be still to be made; before the stop a node is
there for it. -/
structure Chain [DecidableEq τ] (s : Manager τ) (aTask : τ) (p c : ℕ) : Prop where
  produced : stepsOf aTask s.produced = List.range p
  completed : stepsOf aTask s.completed = List.range c
  le : c ≤ p
  fits : ∀ x ∈ chained s, x.task = aTask → x.Fits p c
  waits : s.queue.queue.stop = false → p = c ∨
    ∃ x ∈ pending Pc.todo s.queue, x.value.task = aTask ∧ x.value.stage = .step ∧
      x.value.step = some c ∧ p = c + 1

structure Chains [DecidableEq τ] (s : Manager τ) : Prop where
  quiet : Quiet s.queue
  retry : s.queue.params.retry = true
  entering : ∀ x ∈ s.entering, x.stage = .step
  nodup : ((chained s).map Node.task).Nodup
  inserted : ∀ x ∈ s.entering ++ nodes s, x.task ∈ s.inserted
  unknown : ∀ t ∉ s.inserted, stepsOf t s.produced = [] ∧ stepsOf t s.completed = []
  chain : ∀ t, ∃ p c, Chain s t p c

/-- What a thread has in its hand, and what the other threads and the queue have. -/
theorem chained_setPc {s : Manager τ} {i : ℕ} {x : Item (Node τ)}
    (hi : s.queue.workers[i]? = some (.calling x)) (hstage : x.value.stage ≠ .requested) :
    ∃ l, (pending Pc.hand s.queue).Perm (x :: l) ∧
      (chained s).Perm (x.value ::
        (s.entering ++ (l.map Item.value).filter (·.stage ≠ .requested))) ∧
      ∀ x', (pending Pc.hand (s.queue.setPc i (.calling x'))).Perm (x' :: l) := by
  obtain ⟨l, hold, hset⟩ := hand_setPc hi rfl
  refine ⟨l, hold, ?_, fun x' => hset (.calling x')⟩
  have hcurrent := (hold.map Item.value).filter (·.stage ≠ .requested)
  rw [List.map_cons, List.filter_cons_of_pos (by simp [hstage])] at hcurrent
  exact (hcurrent.append_left s.entering).trans List.perm_middle

/-- Another task waits for its step as before. -/
theorem todo_other {s : Manager τ} {i : ℕ} {x x' y : Item (Node τ)}
    (hi : s.queue.workers[i]? = some (.calling x)) (hy : y ∈ pending Pc.todo s.queue)
    (hne : y.value.task ≠ x.value.task) :
    y ∈ pending Pc.todo (s.queue.setPc i (.calling x')) := by
  have hperm := pending_setPc hi Pc.todo (.calling x')
  have hmem := hperm.symm.subset (List.mem_append_left _ hy)
  rcases List.mem_append.mp hmem with hleft | hright
  · exact hleft
  · rw [List.mem_singleton.mp hright] at hne
    exact absurd rfl hne

/-- A node that waits for its step is one of the current nodes. -/
theorem mem_currentNodes {s : Manager τ} {x : Item (Node τ)} (hx : x ∈ pending Pc.todo s.queue)
    (hstage : x.value.stage = .step) : x.value ∈ currentNodes s := by
  apply List.mem_filter.mpr
  refine ⟨List.mem_map_of_mem ?_, by simp [hstage]⟩
  rcases List.mem_append.mp hx with hlist | hheld
  · exact List.mem_append_left _ hlist
  · obtain ⟨pc, hpc, hmem⟩ := List.mem_flatMap.mp hheld
    apply List.mem_append_right
    apply List.mem_flatMap.mpr
    refine ⟨pc, hpc, ?_⟩
    cases pc <;> first | exact hmem | cases hmem

section
variable [DecidableEq τ] {s : Manager τ}

theorem stepsOf_append_self (t : τ) (l : List (τ × ℕ)) (ks : List ℕ) :
    stepsOf t (l ++ ks.map (t, ·)) = stepsOf t l ++ ks := by
  simp [stepsOf, List.filter_map, Function.comp_def]

theorem stepsOf_append_other {t t' : τ} (h : t ≠ t') (l : List (τ × ℕ)) (ks : List ℕ) :
    stepsOf t' (l ++ ks.map (t, ·)) = stepsOf t' l := by
  simp [stepsOf, List.filter_map, Function.comp_def, h]

theorem subperm_map {α β : Type} {l l' : List α} (h : l.Subperm l') (f : α → β) :
    (l.map f).Subperm (l'.map f) := by
  obtain ⟨l₀, hperm, hsub⟩ := h
  exact ⟨l₀.map f, hperm.map f, hsub.map f⟩

namespace Chains

theorem start (aCount : ℕ) : Chains (.start aCount : Manager τ) := by
  have hnodes : nodes (Manager.start aCount : Manager τ) = [] := by
    simp [nodes, pending, Manager.start, held, Pc.hand]
  have hchained : chained (Manager.start aCount : Manager τ) = [] := by
    rw [chained, currentNodes, hnodes]
    rfl
  constructor
  · exact Quiet.start (Int.le_refl 0) aCount
  · rfl
  · simp [Manager.start]
  · rw [hchained]
    exact List.nodup_nil
  · rw [hnodes]
    simp [Manager.start]
  · intro t _
    exact ⟨rfl, rfl⟩
  · intro t
    refine ⟨0, 0, rfl, rfl, Nat.le_refl 0, ?_, fun _ => Or.inl rfl⟩
    rw [hchained]
    simp

/-- Nodes may go. Before the stop a node stays until its step has returned. -/
theorem less (h : Chains s) {queue : SafeQueueThread (Node τ)} (hquiet : Quiet queue)
    (hretry : queue.params.retry = true)
    (hnodes : (pending Pc.hand queue).Subperm (pending Pc.hand s.queue))
    (htodo : queue.queue.stop = false → s.queue.queue.stop = false ∧
      ∀ x ∈ pending Pc.todo s.queue, x.value.stage = .step → x ∈ pending Pc.todo queue) :
    Chains { s with queue := queue } := by
  have hvalues : (nodes { s with queue := queue }).Subperm (nodes s) :=
    subperm_map hnodes _
  have hchained : (chained { s with queue := queue }).Subperm (chained s) :=
    (List.Subperm.refl s.entering).append (hvalues.filter _)
  constructor
  · exact hquiet
  · exact hretry
  · exact h.entering
  · obtain ⟨l, hperm, hsub⟩ := subperm_map hchained Node.task
    exact hperm.nodup_iff.mp (h.nodup.sublist hsub)
  · intro x hx
    exact h.inserted x (((List.Subperm.refl s.entering).append hvalues).subset hx)
  · exact h.unknown
  · intro t
    obtain ⟨p, c, hchain⟩ := h.chain t
    refine ⟨p, c, hchain.produced, hchain.completed, hchain.le, ?_, ?_⟩
    · intro x hx
      exact hchain.fits x (hchained.subset hx)
    · intro hstop
      obtain ⟨hstop', hkeep⟩ := htodo hstop
      rcases hchain.waits hstop' with heq | ⟨x, hx, htask, hstage, hstep⟩
      · exact Or.inl heq
      · exact Or.inr ⟨x, hkeep x hx hstage, htask, hstage, hstep⟩

theorem loop (h : Chains s) {queue : SafeQueueThread (Node τ)} {l : Loop}
    (hmoves : Moves (priorityQueue Node.serial) (fun _ => true) s.queue l queue) :
    Chains { s with queue := queue } := by
  apply h.less (h.quiet.moves hmoves) (hmoves.params_eq ▸ h.retry) hmoves.hand_subperm
  intro hstop
  have hold : s.queue.queue.stop = false := by
    by_cases hl : l = .stop
    · rw [hl] at hmoves
      cases hmoves with
      | stay => exact hstop
      | stop => cases hstop
    · exact (hmoves.frame hl).2 ▸ hstop
  refine ⟨hold, ?_⟩
  intro x hx _
  exact (h.quiet.moves_todo hold hmoves).symm.subset hx

/-- The step is tried again. -/
theorem stepThrows (h : Chains s) (i : ℕ) : Chains (s.stepThrows i) := by
  unfold Manager.stepThrows
  split
  next x hi =>
    split_ifs with hstage
    · have hthrows : s.queue.throws i x.value = s.queue.setPc i (.testing (some x)) := by
        unfold SafeQueueThread.throws
        rw [hi]
        exact if_pos h.retry
      have hquiet := h.quiet.throws i x.value
      rw [hthrows] at hquiet ⊢
      apply h.less hquiet h.retry
      · exact (pending_setPc_same hi Pc.hand (.testing (some x)) rfl).subperm
      · intro hstop
        refine ⟨hstop, ?_⟩
        intro y hy _
        exact (pending_setPc_same hi Pc.todo (.testing (some x)) rfl).symm.subset hy
    · exact h
  next => exact h

theorem operatorReturns (h : Chains s) (i : ℕ) : Chains (s.operatorReturns i) := by
  unfold Manager.operatorReturns
  split
  next x hi =>
    split_ifs with hstage
    · exact h
    · have hreturns := SafeQueueThread.returns_of_calling hi
      have hquiet := h.quiet.returns i
      rw [hreturns] at hquiet ⊢
      apply h.less hquiet h.retry
      · exact (pending_setPc_same hi Pc.hand (.handled x) rfl).subperm
      · intro hstop
        refine ⟨hstop, ?_⟩
        intro y hy hstep
        rcases List.mem_cons.mp ((todo_handled hi).symm.subset hy) with heq | hmem
        · rw [heq] at hstep
          exact absurd hstep hstage
        · exact hmem
  next => exact h

theorem takeSerial (h : Chains s) {aTask : τ} (hnew : aTask ∉ s.inserted) :
    Chains (s.takeSerial aTask) := by
  have hchained : (chained (s.takeSerial aTask)).Perm
      ({ serial := s.serial, task := aTask } :: chained s) := by
    simp only [chained, Manager.takeSerial]
    rw [List.append_assoc]
    exact List.perm_middle
  constructor
  · exact h.quiet
  · exact h.retry
  · intro x hx
    rcases List.mem_append.mp hx with hold | hsame
    · exact h.entering x hold
    · rw [List.mem_singleton.mp hsame]
  · rw [(hchained.map Node.task).nodup_iff, List.map_cons, List.nodup_cons]
    refine ⟨?_, h.nodup⟩
    intro hmem
    obtain ⟨x, hx, rfl⟩ := List.mem_map.mp hmem
    apply hnew (h.inserted x ?_)
    rcases List.mem_append.mp hx with hentering | hcurrent
    · exact List.mem_append_left _ hentering
    · exact List.mem_append_right _ (List.mem_filter.mp hcurrent).1
  · intro x hx
    simp only [Manager.takeSerial, List.append_assoc, List.mem_append, List.mem_singleton] at hx ⊢
    rcases hx with hold | hsame | hold
    · exact Or.inl (h.inserted x (List.mem_append_left _ hold))
    · exact Or.inr (by rw [hsame])
    · exact Or.inl (h.inserted x (List.mem_append_right _ hold))
  · intro t ht
    exact h.unknown t fun hmem => ht (List.mem_append_left _ hmem)
  · intro t
    obtain ⟨p, c, hchain⟩ := h.chain t
    refine ⟨p, c, hchain.produced, hchain.completed, hchain.le, ?_, hchain.waits⟩
    intro x hx htask
    rcases List.mem_cons.mp (hchained.subset hx) with heq | hmem
    · obtain ⟨hproduced, hcompleted⟩ := h.unknown aTask hnew
      rw [← htask, heq] at hchain
      rw [hchain.produced, List.range_eq_nil] at hproduced
      rw [hchain.completed, List.range_eq_nil] at hcompleted
      rw [heq]
      exact ⟨hproduced, hcompleted⟩
    · exact hchain.fits x hmem htask

/-- The node goes from its thread to the queue. -/
theorem enqueue (h : Chains s) (k : ℕ) : Chains (s.enqueue k) := by
  unfold Manager.enqueue
  split
  next node hk =>
    obtain ⟨hlt, hget⟩ := List.getElem?_eq_some_iff.mp hk
    have hentering : (node :: s.entering.eraseIdx k).Perm s.entering :=
      hget ▸ List.getElem_cons_eraseIdx_perm hlt
    have hnode : node ∈ s.entering := hentering.subset List.mem_cons_self
    generalize hs' : ({ s with
      queue := s.queue.insert node, entering := s.entering.eraseIdx k } : Manager τ) = s'
    have hnodes : (nodes s').Perm (node :: nodes s) := by
      rw [← hs']
      exact (pending_insert s.queue node Pc.hand).map Item.value
    have hall : (s'.entering ++ nodes s').Perm (s.entering ++ nodes s) := by
      refine (hnodes.append_left _).trans (List.perm_middle.trans ?_)
      rw [← List.cons_append, ← hs']
      exact hentering.append_right _
    have hchained : (chained s').Perm (chained s) := by
      have hcurrent : (currentNodes s').Perm (node :: currentNodes s) := by
        have hfilter := hnodes.filter (·.stage ≠ .requested)
        rw [List.filter_cons_of_pos (by simp [h.entering node hnode])] at hfilter
        exact hfilter
      refine (hcurrent.append_left _).trans (List.perm_middle.trans ?_)
      rw [← List.cons_append, ← hs']
      exact hentering.append_right _
    have htodo : ∀ x ∈ pending Pc.todo s.queue, x ∈ pending Pc.todo s'.queue := by
      intro x hx
      rw [← hs']
      exact (pending_insert s.queue node Pc.todo).symm.subset (List.mem_cons_of_mem _ hx)
    rw [← hs'] at *
    constructor
    · exact h.quiet.insert node
    · exact h.retry
    · intro x hx
      exact h.entering x (hentering.subset (List.mem_cons_of_mem _ hx))
    · exact (hchained.map Node.task).nodup_iff.mpr h.nodup
    · intro x hx
      exact h.inserted x (hall.subset hx)
    · exact h.unknown
    · intro t
      obtain ⟨p, c, hchain⟩ := h.chain t
      refine ⟨p, c, hchain.produced, hchain.completed, hchain.le, ?_, ?_⟩
      · intro x hx
        exact hchain.fits x (hchained.subset hx)
      · intro hstop
        rcases hchain.waits hstop with heq | ⟨x, hx, hrest⟩
        · exact Or.inl heq
        · exact Or.inr ⟨x, htodo x hx, hrest⟩
  next => exact h

/-- One node takes the place of another of the same task. -/
theorem exchange (h : Chains s) {l l' : List (Node τ)} {x x' : Node τ}
    (hold : (chained s).Perm (x :: l)) (hnew : l'.Perm (x' :: l)) (htask : x'.task = x.task) :
    (l'.map Node.task).Nodup ∧ ∀ y ∈ l', y = x' ∨ y ∈ chained s ∧ y.task ≠ x.task := by
  have hnodup := (hold.map Node.task).nodup_iff.mp h.nodup
  rw [List.map_cons] at hnodup
  constructor
  · rw [(hnew.map Node.task).nodup_iff, List.map_cons, htask]
    exact hnodup
  · intro y hy
    rcases List.mem_cons.mp (hnew.subset hy) with heq | hmem
    · exact Or.inl heq
    · refine Or.inr ⟨hold.symm.subset (List.mem_cons_of_mem x hmem), ?_⟩
      intro heq
      exact (List.nodup_cons.mp hnodup).1 (heq ▸ List.mem_map_of_mem hmem)

/-- A task gets on: its node is followed by another one, or moves on itself. -/
theorem advance (h : Chains s) {queue : SafeQueueThread (Node τ)}
    {produced completed : List (τ × ℕ)} {x x' : Node τ} {l : List (Node τ)} (hquiet : Quiet queue)
    (hretry : queue.params.retry = true) (hx : x ∈ nodes s)
    (hold : (chained s).Perm (x :: l))
    (hnew : (chained { s with queue := queue }).Perm (x' :: l)) (htask : x'.task = x.task)
    (hnodes : ∀ y ∈ nodes { s with queue := queue }, y.task = x.task ∨ y ∈ nodes s)
    (hother : ∀ t, x.task ≠ t → stepsOf t produced = stepsOf t s.produced ∧
      stepsOf t completed = stepsOf t s.completed)
    (htodo : queue.queue.stop = false → s.queue.queue.stop = false ∧
      ∀ y ∈ pending Pc.todo s.queue, y.value.task ≠ x.task → y ∈ pending Pc.todo queue)
    {p c : ℕ} (hproduced : stepsOf x.task produced = List.range p)
    (hcompleted : stepsOf x.task completed = List.range c) (hle : c ≤ p) (hfits : x'.Fits p c)
    (hwaits : queue.queue.stop = false → p = c ∨
      ∃ y ∈ pending Pc.todo queue, y.value.task = x.task ∧ y.value.stage = .step ∧
        y.value.step = some c ∧ p = c + 1) :
    Chains { s with queue := queue, produced := produced, completed := completed } := by
  obtain ⟨hnodup, hexchange⟩ := h.exchange hold hnew htask
  have hinserted := h.inserted x (List.mem_append_right _ hx)
  constructor
  · exact hquiet
  · exact hretry
  · exact h.entering
  · exact hnodup
  · intro y hy
    rcases List.mem_append.mp hy with hentering | hnode
    · exact h.inserted y (List.mem_append_left _ hentering)
    · rcases hnodes y hnode with heq | hmem
      · rw [heq]
        exact hinserted
      · exact h.inserted y (List.mem_append_right _ hmem)
  · intro t ht
    obtain ⟨hsame, hsame'⟩ := hother t fun heq => ht (heq ▸ hinserted)
    exact ⟨hsame.trans (h.unknown t ht).1, hsame'.trans (h.unknown t ht).2⟩
  · intro t
    by_cases heq : x.task = t
    · rw [← heq]
      refine ⟨p, c, hproduced, hcompleted, hle, ?_, hwaits⟩
      intro y hy hytask
      rcases hexchange y hy with hsame | ⟨-, hne⟩
      · rw [hsame]
        exact hfits
      · exact absurd hytask hne
    · obtain ⟨p, c, hchain⟩ := h.chain t
      obtain ⟨hsame, hsame'⟩ := hother t heq
      refine ⟨p, c, hsame.trans hchain.produced, hsame'.trans hchain.completed, hchain.le, ?_, ?_⟩
      · intro y hy hytask
        rcases hexchange y hy with hsame | ⟨hmem, -⟩
        · rw [hsame, htask] at hytask
          exact absurd hytask heq
        · exact hchain.fits y hmem hytask
      · intro hstop
        obtain ⟨hstop', hkeep⟩ := htodo hstop
        rcases hchain.waits hstop' with hdone | ⟨y, hy, hytask, hrest⟩
        · exact Or.inl hdone
        · exact Or.inr ⟨y, hkeep y hy (hytask ▸ Ne.symm heq), hytask, hrest⟩

theorem stepReturns (h : Chains s) (i : ℕ) : Chains (s.stepReturns i) := by
  unfold Manager.stepReturns
  split
  next x hi =>
    split_ifs with hstage
    · obtain ⟨l, hold, hchained, hset⟩ := chained_setPc hi (by simp [hstage])
      have hnodes := (hset { x with value.stage := .operator }).map Item.value
      have hcurrent := (hnodes.filter (·.stage ≠ .requested)).append_left s.entering
      rw [List.map_cons, List.filter_cons_of_pos (by simp)] at hcurrent
      have hx : x.value ∈ nodes s := (hold.map Item.value).symm.subset List.mem_cons_self
      obtain ⟨p, c, hchain⟩ := h.chain x.value.task
      have hfits := hchain.fits x.value (hchained.symm.subset List.mem_cons_self) rfl
      have hdone : c + x.value.step.toList.length = p ∧
          stepsOf x.value.task (s.completed ++ x.value.step.toList.map (x.value.task, ·)) =
            List.range p := by
        rw [stepsOf_append_self, hchain.completed]
        unfold Node.Fits at hfits
        rw [hstage] at hfits
        cases hstep : x.value.step with
        | none =>
            rw [hstep] at hfits
            obtain ⟨rfl, rfl⟩ := hfits
            exact ⟨rfl, rfl⟩
        | some k =>
            rw [hstep] at hfits
            obtain ⟨rfl, rfl⟩ := hfits
            exact ⟨rfl, List.range_succ.symm⟩
      refine h.advance ?_ ?_ hx hchained (hcurrent.trans List.perm_middle) ?_ ?_ ?_ ?_
        hchain.produced hdone.2 (Nat.le_refl p) ?_ ?_
      · exact h.quiet.setPc i (by simp) (by simp)
      · exact h.retry
      · rfl
      · intro y hy
        rcases List.mem_cons.mp (hnodes.subset hy) with heq | hmem
        · exact Or.inl (by rw [heq])
        · exact Or.inr ((hold.map Item.value).symm.subset (List.mem_cons_of_mem _ hmem))
      · intro t hne
        exact ⟨rfl, stepsOf_append_other hne _ _⟩
      · intro hstop
        exact ⟨hstop, fun y hy hne => todo_other hi hy hne⟩
      · rfl
      · exact fun _ => Or.inl rfl
    · exact h
  next => exact h

theorem requests (h : Chains s) (i : ℕ) : Chains (s.requests i) := by
  unfold Manager.requests
  split
  next x hi =>
    split_ifs with hstage
    · obtain ⟨l, hold, hchained, hset⟩ := chained_setPc hi (by simp [hstage])
      obtain ⟨p, c, hchain⟩ := h.chain x.value.task
      have hfits := hchain.fits x.value (hchained.symm.subset List.mem_cons_self) rfl
      have hpc : p = c := by
        unfold Node.Fits at hfits
        rw [hstage] at hfits
        exact hfits
      have hnext : (stepsOf x.value.task s.produced).length = c := by
        rw [hchain.produced, List.length_range, hpc]
      dsimp only
      rw [hnext]
      generalize hnode : ({ serial := x.value.serial, task := x.value.task, step := some c } :
        Node τ) = node
      have hinsert := pending_insert
        (s.queue.setPc i (.calling { x with value.stage := .requested })) node
      have hnodes := ((hinsert Pc.hand).trans
        ((hset { x with value.stage := .requested }).cons _)).map Item.value
      have hcurrent := (hnodes.filter (·.stage ≠ .requested)).append_left s.entering
      rw [List.map_cons, List.map_cons, List.filter_cons_of_pos (by simp [← hnode]),
        List.filter_cons_of_neg (by simp)] at hcurrent
      have hx : x.value ∈ nodes s := (hold.map Item.value).symm.subset List.mem_cons_self
      refine h.advance ?_ ?_ hx hchained (hcurrent.trans List.perm_middle) ?_ ?_ ?_ ?_
        (p := c + 1) (c := c) ?_ hchain.completed (Nat.le_succ c) ?_ ?_
      · exact (h.quiet.setPc i (by simp) (by simp)).insert node
      · exact h.retry
      · rw [← hnode]
      · intro y hy
        rcases List.mem_cons.mp (hnodes.subset hy) with heq | hmem
        · exact Or.inl (by rw [heq, ← hnode])
        · rcases List.mem_cons.mp hmem with heq | hmem
          · exact Or.inl (by rw [heq])
          · exact Or.inr ((hold.map Item.value).symm.subset (List.mem_cons_of_mem _ hmem))
      · intro t hne
        exact ⟨stepsOf_append_other hne _ [c], rfl⟩
      · intro hstop
        refine ⟨hstop, ?_⟩
        intro y hy hne
        exact (hinsert Pc.todo).symm.subset (List.mem_cons_of_mem _ (todo_other hi hy hne))
      · have hself := stepsOf_append_self x.value.task s.produced [c]
        rw [hchain.produced, hpc, ← List.range_succ] at hself
        exact hself
      · rw [← hnode]
        exact ⟨rfl, rfl⟩
      · intro _
        right
        refine ⟨_, (hinsert Pc.todo).symm.subset List.mem_cons_self, ?_⟩
        rw [← hnode]
        exact ⟨rfl, rfl, rfl, rfl⟩
    · exact h
  next => exact h

end Chains

/-! ## Runs -/

theorem pipelineStep_chains (s : Manager τ) (e : Event τ) (h : Chains s) (he : Distinct s e) :
    Chains (pipelineStep s e) := by
  cases e with
  | takeSerial aTask => exact h.takeSerial he
  | enqueue k => exact h.enqueue k
  | loop l => exact h.loop (loopStep_moves _ _ s.queue l)
  | stepReturns i => exact h.stepReturns i
  | stepThrows i => exact h.stepThrows i
  | requests i => exact h.requests i
  | operatorReturns i => exact h.operatorReturns i

/-- A task has at most one node, not counting one that is still in the hand of a
thread although the next one was asked for. Its steps are completed in the order
of the requests, each at most once; before the stop, a step that is not completed
has its node. -/
theorem steps_in_one_chain (aCount : ℕ) (es : List (Event τ))
    (hes : Meets pipelineStep Distinct (.start aCount) es) (aTask : τ) :
    let s := run pipelineStep (.start aCount) es
    ((currentNodes s).filter (·.task = aTask)).length ≤ 1 ∧
    stepsOf aTask s.completed <+: stepsOf aTask s.produced ∧
    (stepsOf aTask s.produced).Nodup ∧
    (s.queue.queue.stop = false → ∀ k ∈ stepsOf aTask s.produced,
      k ∈ stepsOf aTask s.completed ∨
        ∃ x ∈ currentNodes s, x.task = aTask ∧ x.stage = .step ∧ x.step = some k) ∧
    (s.queue.queue.stop = false → (∀ x ∈ currentNodes s, x.task ≠ aTask) →
      stepsOf aTask s.completed = stepsOf aTask s.produced) := by
  intro s
  have h : Chains s := run_invariant pipelineStep_chains (Chains.start aCount) hes
  obtain ⟨p, c, hchain⟩ := h.chain aTask
  refine ⟨?_, ?_, ?_, ?_, ?_⟩
  · have hnodup := h.nodup
    rw [chained, List.map_append, List.nodup_append] at hnodup
    have hcount := List.nodup_iff_count.mp hnodup.2.1 aTask
    rw [List.count, List.countP_map, List.countP_eq_length_filter] at hcount
    exact hcount
  · rw [hchain.completed, hchain.produced, List.prefix_iff_eq_take, List.length_range,
      List.take_range, Nat.min_eq_left hchain.le]
  · rw [hchain.produced]
    exact List.nodup_range
  · intro hstop k hk
    rw [hchain.produced, List.mem_range] at hk
    rw [hchain.completed, List.mem_range]
    rcases hchain.waits hstop with heq | ⟨x, hx, htask, hstage, hstep, hp⟩
    · exact Or.inl (heq ▸ hk)
    · by_cases hlt : k < c
      · exact Or.inl hlt
      · refine Or.inr ⟨x.value, mem_currentNodes hx hstage, htask, hstage, ?_⟩
        rw [hstep]
        exact congrArg some (by omega)
  · intro hstop hnone
    rw [hchain.completed, hchain.produced]
    rcases hchain.waits hstop with heq | ⟨x, hx, htask, hstage, -⟩
    · rw [heq]
    · exact absurd htask (hnone x.value (mem_currentNodes hx hstage))

end

/-- The task asks for a step, which throws once, and for no other. -/
def retryRun : List (Event ℕ) :=
  [.takeSerial 5, .enqueue 0, .loop (.test 0), .loop (.wait 0), .loop (.test 0),
    .stepReturns 0, .requests 0, .operatorReturns 0, .loop (.finish 0),
    .loop (.test 0), .loop (.wait 0), .loop (.test 0), .stepThrows 0, .loop (.test 0),
    .stepReturns 0, .operatorReturns 0, .loop (.finish 0)]

theorem steps_in_one_chain_retry :
    Meets pipelineStep Distinct (.start 1) retryRun ∧
      stepsOf 5 (run pipelineStep (.start 1) retryRun).completed = [0] ∧
      stepsOf 5 (run pipelineStep (.start 1) retryRun).completed =
        stepsOf 5 (run pipelineStep (.start 1) retryRun).produced := by
  have hes : Meets pipelineStep Distinct (.start 1) retryRun := by decide
  refine ⟨hes, by decide, ?_⟩
  exact (steps_in_one_chain 1 retryRun hes 5).2.2.2.2 (by decide) (by decide)

/-- While a task is called, its node is in the hand of the thread; the node that it asks
for is in the queue then. -/
theorem two_nodes_of_a_task :
    ∃ es : List (Event ℕ), Meets pipelineStep Distinct (.start 1) es ∧
      ((nodes (run pipelineStep (.start 1) es)).filter (·.task = 5)).length = 2 :=
  ⟨retryRun.take 7, by decide, by decide⟩

end Stuff.ThreadsPipeline
