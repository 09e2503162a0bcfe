import Guatiao.Lib.Machine
import Guatiao.Table.Slots

/-!
# Objects lent to other threads

A share puts a lent object into a cell, and handles on the cell call it or pass it on, each holding the
cell's read side. The share's end empties the cell, where its closure returned.
-/

namespace Guatiao.Table.Lending

variable {Object : Type}

/-- The cell of one share, and, as no code reads it, through whose handle its object was passed on and
whether the share has ended. -/
structure Cell (Object : Type) where
  lent : Option Object
  parent : Option ℕ
  ended : Bool

def goneStatus : Status := ⟨12⟩

/-- What a call of a handle finds in its cell. -/
def LentHandle.call (cell : Cell Object) : Except ProviderError Object :=
  match cell.lent with
  | some raw => .ok raw
  | none => .error ⟨goneStatus, "the object was lent for a call that has returned"⟩

/-- What a handle passes on. -/
def LentHandle.lend (cell : Cell Object) : Option Object := cell.lent

/-- What a thread is in. -/
inductive Frame
  /-- The closure of a share, of an object passed on by a handle or not. -/
  | share (cell : ℕ) (parent : Option ℕ)
  /-- The object, called through a handle. -/
  | call (cell : ℕ)
  /-- The closure a handle passes on to, with an object or none. -/
  | lend (cell : ℕ) (found : Bool)
  /-- The object, called as it was passed on. -/
  | passed (cell : ℕ)
  deriving DecidableEq

namespace Frame

/-- Whether it holds the cell's read side. -/
def reads (c : ℕ) : Frame → Bool
  | call c' => c' = c
  | lend c' _ => c' = c
  | _ => false

/-- Whether it has the object through the cell. -/
def reaches (c : ℕ) : Frame → Bool
  | call c' => c' = c
  | lend c' found => c' = c && found
  | passed c' => c' = c
  | share .. => false

end Frame

/-- The cells of all shares, the handles there are, by their cells, and what each thread is in, the
innermost first. -/
structure State (Object : Type) where
  cells : List (Cell Object) := []
  handles : List ℕ := []
  threads : List (List Frame) := []

inductive Action (Object : Type)
  | spawn
  /-- A share of an object some caller lent. -/
  | share (thread : ℕ) (object : Object)
  /-- A share of an object a handle passed on. -/
  | sharePassed (thread cell : ℕ)
  | clone (cell : ℕ)
  | drop (cell : ℕ)
  | call (thread cell : ℕ)
  | lend (thread cell : ℕ)
  | callPassed (thread cell : ℕ)
  /-- What a thread is in returns or unwinds. -/
  | leave (thread : ℕ) (unwinding : Bool)

namespace State

variable {s : State Object} {t : ℕ} {stack : List Frame}

/-- A thread goes on with another stack. -/
def put (s : State Object) (t : ℕ) (stack : List Frame) : State Object :=
  { s with threads := s.threads.set t stack }

/-- A share begins: its closure has a handle on a new cell. -/
def begin_ (s : State Object) (t : ℕ) (stack : List Frame) (object : Object) (parent : Option ℕ) :
    State Object :=
  { s.put t (.share s.cells.length parent :: stack) with
    cells := s.cells ++ [⟨some object, parent, false⟩]
    handles := s.cells.length :: s.handles }

/-- A share ends, and empties its cell or not. -/
def finish (s : State Object) (c : ℕ) (emptied : Bool) : State Object :=
  { s with cells := s.cells.modify c fun cell =>
      { cell with ended := true, lent := if emptied then none else cell.lent } }

/-- Whether some thread is in such a frame. -/
def any (s : State Object) (p : Frame → Bool) : Bool := s.threads.any fun stack => stack.any p

/-- One action. A read side that is held keeps the cell from being emptied; unwinding passes over it. -/
def step (s : State Object) : Action Object → Option (State Object)
  | .spawn => some { s with threads := s.threads ++ [[]] }
  | .share t object => s.threads[t]?.map fun stack => s.begin_ t stack object none
  | .sharePassed t p => do
    let stack ← s.threads[t]?
    let cell ← s.cells[p]?
    let object ← cell.lent
    if .lend p true ∈ stack then some (s.begin_ t stack object (some p)) else none
  | .clone c => if c ∈ s.handles then some { s with handles := c :: s.handles } else none
  | .drop c => if c ∈ s.handles then some { s with handles := s.handles.erase c } else none
  | .call t c => do
    let stack ← s.threads[t]?
    let cell ← s.cells[c]?
    if c ∈ s.handles then
      match LentHandle.call cell with
      | .error _ => some s
      | .ok _ => some (s.put t (.call c :: stack))
    else none
  | .lend t c => do
    let stack ← s.threads[t]?
    let cell ← s.cells[c]?
    if c ∈ s.handles then some (s.put t (.lend c (LentHandle.lend cell).isSome :: stack)) else none
  | .callPassed t p => do
    let stack ← s.threads[t]?
    if .lend p true ∈ stack then some (s.put t (.passed p :: stack)) else none
  | .leave t unwinding =>
    match s.threads[t]? with
    | some (.share c _ :: rest) =>
      if unwinding then some ((s.put t rest).finish c false)
      else if s.any (Frame.reads c) then none
      else some ((s.put t rest).finish c true)
    | some (_ :: rest) => some (s.put t rest)
    | _ => none

/-- A share has ended. -/
def Over (s : State Object) (c : ℕ) : Prop := ∃ cell, s.cells[c]? = some cell ∧ cell.ended = true

/-- A cell holds the share's object, or one passed on through such a cell. -/
inductive Under (s : State Object) (a : ℕ) : ℕ → Prop
  | refl : Under s a a
  | passed {p c : ℕ} {cell : Cell Object} (hcell : s.cells[c]? = some cell) (hp : cell.parent = some p)
      (h : Under s a p) : Under s a c

/-- No call goes through the cell, and none that a handle makes finds an object. -/
structure Shut (s : State Object) (c : ℕ) : Prop where
  idle : s.any (Frame.reaches c) = false
  gone : c ∈ s.handles → ∀ cell, s.cells[c]? = some cell → LentHandle.lend cell = none ∧
    LentHandle.call cell = .error ⟨goneStatus, "the object was lent for a call that has returned"⟩

/-- Objects are reached during their lends. -/
def Confined (s : State Object) : Prop := ∀ a c, s.Over a → s.Under a c → s.Shut c

/-- No share's closure unwinds with the object in its cell and a handle left or a call on its way. -/
def clean (s : State Object) : Action Object → Bool
  | .leave t true =>
    match s.threads[t]? with
    | some (.share c _ :: _) =>
      ((s.cells[c]?).bind Cell.lent).isNone || (c ∉ s.handles && !s.any (Frame.reaches c))
    | _ => true
  | _ => true

/-- Some thread is in the frame. -/
def In (s : State Object) (f : Frame) : Prop := ∃ stack ∈ s.threads, f ∈ stack

theorem any_iff {p : Frame → Bool} : s.any p = true ↔ ∃ f, s.In f ∧ p f = true := by
  simp only [any, In, List.any_eq_true]
  constructor
  · rintro ⟨stack, hstack, f, hf, hp⟩
    exact ⟨f, ⟨stack, hstack, hf⟩, hp⟩
  · rintro ⟨f, ⟨stack, hstack, hf⟩, hp⟩
    exact ⟨stack, hstack, f, hf, hp⟩

variable {f : Frame}

theorem in_put (h : (s.put t stack).In f) : f ∈ stack ∨ s.In f := by
  obtain ⟨other, hother, hf⟩ := h
  rcases List.mem_or_eq_of_mem_set hother with hother | rfl
  · exact .inr ⟨other, hother, hf⟩
  · exact .inl hf

theorem put_in {old : List Frame} (hold : s.threads[t]? = some old) (h : s.In f) :
    f ∈ old ∨ (s.put t stack).In f := by
  obtain ⟨other, hother, hf⟩ := h
  obtain ⟨i, hi⟩ := List.mem_iff_getElem?.mp hother
  by_cases hit : t = i
  · rw [hit, hi] at hold
    exact .inl (Option.some.inj hold ▸ hf)
  · exact .inr ⟨other, List.mem_iff_getElem?.mpr ⟨i, (List.getElem?_set_ne hit).trans hi⟩, hf⟩

theorem in_stack (hold : s.threads[t]? = some stack) (hf : f ∈ stack) : s.In f :=
  ⟨stack, List.mem_of_getElem? hold, hf⟩

theorem mem_put (hold : s.threads[t]? = some stack) {new : List Frame} (hf : f ∈ new) :
    (s.put t new).In f :=
  ⟨new, List.mem_set (List.getElem?_eq_some_iff.mp hold).1 new, hf⟩

end State

/-- The cell whose lend a frame is part of. -/
def Frame.under : Frame → Option ℕ
  | share _ parent => parent
  | passed p => some p
  | _ => none

/-- Frames rest on the lends they are part of. -/
def Rests : List Frame → Prop
  | [] => True
  | f :: rest => (∀ p, f.under = some p → .lend p true ∈ rest) ∧ Rests rest

theorem Rests.lend_mem {stack : List Frame} {f : Frame} {p : ℕ} (h : Rests stack) (hf : f ∈ stack)
    (hp : f.under = some p) : .lend p true ∈ stack := by
  induction stack with
  | nil => cases hf
  | cons g rest ih =>
    rcases List.mem_cons.mp hf with rfl | hf
    · exact List.mem_cons_of_mem _ (h.1 p hp)
    · exact List.mem_cons_of_mem _ (ih h.2 hf)

namespace State

variable {s s' : State Object} {a : Action Object} {t c : ℕ} {stack : List Frame}

/-- Stacks rest on the lends they are part of, and a share that has not ended is on one. -/
structure Nested (s : State Object) : Prop where
  rests : ∀ stack ∈ s.threads, Rests stack
  running : ∀ c cell, s.cells[c]? = some cell → cell.ended = true ∨
    cell.lent ≠ none ∧ s.In (.share c cell.parent)

variable {f g : Frame} {emptied : Bool}

theorem Nested.lend_in (h : Nested s) {p : ℕ} (hf : s.In f) (hp : f.under = some p) :
    s.In (.lend p true) := by
  obtain ⟨stack, hstack, hf⟩ := hf
  exact ⟨stack, hstack, (h.rests stack hstack).lend_mem hf hp⟩

theorem Nested.over_of_under (h : Nested s) (hshut : ∀ c, s.Over c → s.Shut c) {a : ℕ} (ha : s.Over a)
    (hunder : s.Under a c) : s.Over c := by
  induction hunder with
  | refl => exact ha
  | @passed p c cell hcell hp _ ih =>
    rcases h.running c cell hcell with hover | ⟨-, hin⟩
    · exact ⟨cell, hcell, hover⟩
    · have hreach : s.any (Frame.reaches p) = true :=
        any_iff.mpr ⟨_, h.lend_in hin hp, by simp [Frame.reaches]⟩
      rw [(hshut p ih).idle] at hreach
      cases hreach

theorem confined_iff (h : Nested s) : s.Confined ↔ ∀ c, s.Over c → s.Shut c :=
  ⟨fun hall c hover => hall c c hover .refl,
    fun hshut _ c ha hunder => hshut c (h.over_of_under hshut ha hunder)⟩

/-- What an action does. -/
inductive Turn (s : State Object) (clean : Bool) (s' : State Object) : Prop
  /-- No cell or stack changes, and no cell gets its first handle. -/
  | quiet (hcells : s'.cells = s.cells)
      (hstacks : ∀ stack ∈ s'.threads, stack ∈ s.threads ∨ stack = []) (hin : ∀ f, s'.In f ↔ s.In f) (hhandles : ∀ c ∈ s'.handles, c ∈ s.handles) (hclean : clean = true)
  | begins {t : ℕ} {stack : List Frame} (hat : s.threads[t]? = some stack) {object : Object}
      {parent : Option ℕ} (hp : ∀ p, parent = some p → .lend p true ∈ stack)
      (heq : s' = s.begin_ t stack object parent)
      (hclean : clean = true)
  | pushes {t : ℕ} {stack : List Frame} (hat : s.threads[t]? = some stack) {f : Frame}
      (heq : s' = s.put t (f :: stack))
      (hp : ∀ p, f.under = some p → .lend p true ∈ stack)
      (hreach : ∀ c, f.reaches c = true → s.any (Frame.reaches c) = true ∨
        c ∈ s.handles ∧ ∃ cell, s.cells[c]? = some cell ∧ LentHandle.lend cell ≠ none)
      (hclean : clean = true)
  | pops {t : ℕ} {stack : List Frame} {f : Frame} (hat : s.threads[t]? = some (f :: stack))
      (heq : s' = s.put t stack)
      (hf : ∀ c parent, f ≠ .share c parent) (hclean : clean = true)
  | ends {t c : ℕ} {stack : List Frame} {parent : Option ℕ}
      (hat : s.threads[t]? = some (.share c parent :: stack))
      (heq : s' = (s.put t stack).finish c true) (hreads : s.any (Frame.reads c) = false)
      (hclean : clean = true)
  | unwinds {t c : ℕ} {stack : List Frame} {parent : Option ℕ}
      (hat : s.threads[t]? = some (.share c parent :: stack))
      (heq : s' = (s.put t stack).finish c false)
      (hclean : clean = true ↔ ((s.cells[c]?).bind Cell.lent).isNone = true ∨
        c ∉ s.handles ∧ s.any (Frame.reaches c) = false)

theorem turn_of_step (h : step s a = some s') : Turn s (s.clean a) s' := by
  cases a with
  | spawn =>
    obtain rfl := Option.some.inj h
    refine .quiet rfl (fun stack hstack => ?_) (fun f => ?_) (fun _ => id) rfl
    · exact (List.mem_append.mp hstack).imp_right List.mem_singleton.mp
    · simp [In, or_and_right, exists_or]
  | share t object =>
    obtain ⟨stack, hat, rfl⟩ := Option.map_eq_some_iff.mp h
    exact .begins hat (fun p hp => by cases hp) rfl rfl
  | sharePassed t p =>
    simp only [step, Option.bind_eq_bind, Option.bind_eq_some_iff] at h
    obtain ⟨stack, hat, cell, -, object, -, h⟩ := h
    split at h
    · next hin =>
      obtain rfl := Option.some.inj h
      refine .begins hat (fun q hq => ?_) rfl rfl
      exact Option.some.inj hq ▸ hin
    · cases h
  | clone c =>
    simp only [step] at h
    split at h
    · next hc =>
      obtain rfl := Option.some.inj h
      exact .quiet rfl (fun _ => .inl) (fun _ => .rfl) (List.forall_mem_cons.mpr ⟨hc, fun _ => id⟩) rfl
    · cases h
  | drop c =>
    simp only [step] at h
    split at h
    · obtain rfl := Option.some.inj h
      exact .quiet rfl (fun _ => .inl) (fun _ => .rfl) (fun _ => List.mem_of_mem_erase) rfl
    · cases h
  | call t c =>
    simp only [step, Option.bind_eq_bind, Option.bind_eq_some_iff] at h
    obtain ⟨stack, hat, cell, hcell, h⟩ := h
    split at h
    · next hc =>
      split at h
      · obtain rfl := Option.some.inj h
        exact .quiet rfl (fun _ => .inl) (fun _ => .rfl) (fun _ => id) rfl
      · next raw hcall =>
        obtain rfl := Option.some.inj h
        refine .pushes hat rfl (fun p hp => by cases hp) (fun d hd => .inr ?_) rfl
        obtain rfl : c = d := by simpa [Frame.reaches] using hd
        refine ⟨hc, cell, hcell, fun hnone => ?_⟩
        rw [LentHandle.lend] at hnone
        rw [LentHandle.call, hnone] at hcall
        cases hcall
    · cases h
  | lend t c =>
    simp only [step, Option.bind_eq_bind, Option.bind_eq_some_iff] at h
    obtain ⟨stack, hat, cell, hcell, h⟩ := h
    split at h
    · next hc =>
      obtain rfl := Option.some.inj h
      refine .pushes hat rfl (fun p hp => by cases hp) (fun d hd => .inr ?_) rfl
      obtain ⟨rfl, hsome⟩ : c = d ∧ (LentHandle.lend cell).isSome = true := by
        simpa [Frame.reaches] using hd
      exact ⟨hc, cell, hcell, Option.isSome_iff_ne_none.mp hsome⟩
    · cases h
  | callPassed t p =>
    simp only [step, Option.bind_eq_bind, Option.bind_eq_some_iff] at h
    obtain ⟨stack, hat, h⟩ := h
    split at h
    · next hin =>
      obtain rfl := Option.some.inj h
      refine .pushes hat rfl (fun q hq => ?_) (fun d hd => .inl ?_) rfl
      · exact Option.some.inj hq ▸ hin
      · obtain rfl : p = d := by simpa [Frame.reaches] using hd
        exact any_iff.mpr ⟨_, in_stack hat hin, by simp [Frame.reaches]⟩
    · cases h
  | leave t unwinding =>
    cases hat : s.threads[t]? with
    | none => simp [step, hat] at h
    | some stack =>
      cases stack with
      | nil => simp [step, hat] at h
      | cons f rest =>
        cases f with
        | share c parent =>
          simp only [step, hat] at h
          cases unwinding with
          | true =>
            obtain rfl := Option.some.inj h
            exact .unwinds hat rfl (by simp [clean, hat])
          | false =>
            split at h
            · next hfalse => cases hfalse
            · split at h
              · cases h
              · next hreads =>
                obtain rfl := Option.some.inj h
                exact .ends hat rfl (Bool.eq_false_iff.mpr hreads) rfl
        | _ =>
          simp only [step, hat] at h
          obtain rfl := Option.some.inj h
          exact .pops hat rfl (by simp) (by cases unwinding <;> simp [clean, hat])

theorem in_of_put_tail (hat : s.threads[t]? = some (g :: stack)) (h : (s.put t stack).In f) : s.In f :=
  (in_put h).elim (fun hf => in_stack hat (List.mem_cons_of_mem g hf)) id

theorem put_tail_in (hat : s.threads[t]? = some (g :: stack)) (hne : f ≠ g)
    (h : s.In f) : (s.put t stack).In f := by
  rcases put_in hat h with hf | hf
  · exact mem_put hat ((List.mem_cons.mp hf).resolve_left hne)
  · exact hf

theorem put_cons_in (hat : s.threads[t]? = some stack) (h : s.In f) :
    (s.put t (g :: stack)).In f :=
  (put_in hat h).elim (fun hf => mem_put hat (List.mem_cons_of_mem g hf)) id

theorem Nested.rests_put (h : Nested s) {new : List Frame} (hnew : Rests new) :
    ∀ stack ∈ (s.put t new).threads, Rests stack := fun other hother =>
  (List.mem_or_eq_of_mem_set hother).elim (h.rests other) fun heq => heq ▸ hnew

theorem Nested.finish (h : Nested s) {parent : Option ℕ}
    (hat : s.threads[t]? = some (.share c parent :: stack)) :
    Nested ((s.put t stack).finish c emptied) where
  rests := h.rests_put (h.rests _ (List.mem_of_getElem? hat)).2
  running d cell hcell := by
    rw [State.finish, List.getElem?_modify] at hcell
    obtain ⟨old, hold, rfl⟩ := Option.map_eq_some_iff.mp hcell
    by_cases hcd : c = d
    · exact .inl (by rw [if_pos hcd])
    · rw [if_neg hcd]
      refine (h.running d old hold).imp_right (.imp_right (put_tail_in hat fun heq => ?_))
      exact hcd (Frame.share.inj heq).1.symm

theorem nested_step : Lib.Kept (@step Object) Nested := by
  intro s a s' h hstep
  cases turn_of_step hstep with
  | quiet hcells hstacks hin _ _ =>
    refine ⟨fun stack hstack => ?_, fun c cell hcell => ?_⟩
    · rcases hstacks stack hstack with hold | rfl
      · exact h.rests stack hold
      · trivial
    · exact (h.running c cell (hcells ▸ hcell)).imp_right (.imp_right (hin _).mpr)
  | begins hat hp heq _ =>
    rw [heq]
    refine ⟨h.rests_put ⟨hp, h.rests _ (List.mem_of_getElem? hat)⟩, fun c cell hcell => ?_⟩
    rw [begin_, List.getElem?_append] at hcell
    split at hcell
    · exact (h.running c cell hcell).imp_right (.imp_right (put_cons_in hat))
    · next hlen =>
      obtain ⟨hc, rfl⟩ := List.getElem?_eq_some_iff.mp hcell
      rw [List.length_singleton, Nat.lt_one_iff] at hc
      obtain rfl : c = s.cells.length := by omega
      exact .inr ⟨by simp, mem_put hat (by simp)⟩
  | pushes hat heq hp _ _ =>
    rw [heq]
    exact ⟨h.rests_put ⟨hp, h.rests _ (List.mem_of_getElem? hat)⟩,
      fun c cell hcell => (h.running c cell hcell).imp_right (.imp_right (put_cons_in hat))⟩
  | pops hat heq hf _ =>
    rw [heq]
    refine ⟨h.rests_put (h.rests _ (List.mem_of_getElem? hat)).2, fun c cell hcell => ?_⟩
    exact (h.running c cell hcell).imp_right (.imp_right (put_tail_in hat (hf c cell.parent).symm))
  | ends hat heq _ _ =>
    rw [heq]
    exact h.finish hat
  | unwinds hat heq _ =>
    rw [heq]
    exact h.finish hat

theorem Shut.mono (h : s.Shut c) (hin : ∀ f, s'.In f → f.reaches c = true → s.In f)
    (hhandles : c ∈ s'.handles → c ∈ s.handles) (hcell : s'.cells[c]? = s.cells[c]?) : s'.Shut c where
  idle := by
    rw [Bool.eq_false_iff, Ne, any_iff]
    rintro ⟨f, hf, hreach⟩
    exact absurd (any_iff.mpr ⟨f, hin f hf hreach, hreach⟩) (Bool.eq_false_iff.mp h.idle)
  gone hc cell hat := h.gone (hhandles hc) cell (hcell ▸ hat)

/-- The end of a share shuts its cell where it empties it or leaves nothing that reaches it, and leaves
the cells of other ended shares shut. -/
theorem shut_finish {parent : Option ℕ}
    (hat : s.threads[t]? = some (.share c parent :: stack)) (hshut : ∀ d, s.Over d → s.Shut d)
    (hc : ((s.put t stack).finish c emptied).Over c → ((s.put t stack).finish c emptied).Shut c) :
    ∀ d, ((s.put t stack).finish c emptied).Over d → ((s.put t stack).finish c emptied).Shut d := by
  rintro d ⟨cell, hcell, hover⟩
  by_cases hcd : c = d
  · subst hcd
    exact hc ⟨cell, hcell, hover⟩
  · have hsame : ((s.put t stack).finish c emptied).cells[d]? = s.cells[d]? :=
      List.getElem?_modify_ne _ _ hcd
    exact (hshut d ⟨cell, hsame ▸ hcell, hover⟩).mono (fun f hf _ => in_of_put_tail hat hf) id hsame

theorem shut_step_iff (hs : Nested s ∧ ∀ c, s.Over c → s.Shut c) (hstep : step s a = some s') :
    (Nested s' ∧ ∀ c, s'.Over c → s'.Shut c) ↔ s.clean a = true := by
  rw [and_iff_right (nested_step s a s' hs.1 hstep)]
  obtain ⟨hnested, hshut⟩ := hs
  cases turn_of_step hstep with
  | quiet hcells _ hin hhandles hclean =>
    refine iff_of_true (fun c hover => ?_) hclean
    obtain ⟨cell, hcell, hover⟩ := hover
    exact (hshut c ⟨cell, hcells ▸ hcell, hover⟩).mono (fun f hf _ => (hin f).mp hf) (hhandles c)
      (by rw [hcells])
  | @begins t stack hat object parent hp heq hclean =>
    subst heq
    refine iff_of_true (fun c hover => ?_) hclean
    obtain ⟨cell, hcell, hover⟩ := hover
    have hlt : c < s.cells.length := by
      by_contra hge
      rw [begin_, List.getElem?_append_right (Nat.le_of_not_lt hge)] at hcell
      rw [List.mem_singleton.mp (List.mem_of_getElem? hcell)] at hover
      cases hover
    have hsame : (s.begin_ t stack object parent).cells[c]? = s.cells[c]? := List.getElem?_append_left hlt
    refine (hshut c ⟨cell, hsame ▸ hcell, hover⟩).mono (fun f hf hreach => ?_) (fun hc => ?_) hsame
    · rcases in_put hf with hf | hf
      · rcases List.mem_cons.mp hf with rfl | hf
        · cases hreach
        · exact in_stack hat hf
      · exact hf
    · exact (List.mem_cons.mp hc).resolve_left hlt.ne
  | pushes hat heq hp hreach hclean =>
    subst heq
    refine iff_of_true (fun c hover => ?_) hclean
    have hold : s.Shut c := hshut c hover
    refine hold.mono (fun g hg hg' => ?_) id rfl
    rcases in_put hg with hg | hg
    · rcases List.mem_cons.mp hg with rfl | hg
      · rcases hreach c hg' with hany | ⟨hc, cell, hcell, hsome⟩
        · rw [hold.idle] at hany
          cases hany
        · exact absurd (hold.gone hc cell hcell).1 hsome
      · exact in_stack hat hg
    · exact hg
  | pops hat heq _ hclean =>
    subst heq
    refine iff_of_true (fun c hover => ?_) hclean
    exact (hshut c hover).mono (fun f hf _ => in_of_put_tail hat hf) id rfl
  | @ends t c stack parent hat heq hreads hclean =>
    subst heq
    refine iff_of_true (shut_finish hat hshut fun _ => ⟨?_, fun _ cell hcell => ?_⟩) hclean
    · rw [Bool.eq_false_iff, Ne, any_iff]
      rintro ⟨f, hf, hreach⟩
      have hold := in_of_put_tail hat hf
      have hread : ∃ g, s.In g ∧ g.reads c = true := by
        cases f with
        | share d q => cases hreach
        | call d => exact ⟨_, hold, hreach⟩
        | lend d found =>
          rw [Frame.reaches, Bool.and_eq_true] at hreach
          exact ⟨_, hold, hreach.1⟩
        | passed d =>
          obtain rfl : d = c := of_decide_eq_true hreach
          exact ⟨_, hnested.lend_in hold rfl, decide_eq_true rfl⟩
      rw [any_iff.mpr hread] at hreads
      cases hreads
    · rw [State.finish, List.getElem?_modify_eq] at hcell
      obtain ⟨old, -, rfl⟩ := Option.map_eq_some_iff.mp hcell
      exact ⟨rfl, rfl⟩
  | @unwinds t c stack parent hat heq hclean =>
    subst heq
    rw [hclean]
    constructor
    · intro hall
      rw [or_iff_not_imp_left, Option.isNone_iff_eq_none, ← Ne, Option.ne_none_iff_exists']
      rintro ⟨object, hobject⟩
      obtain ⟨cell, hcell, hlent⟩ := Option.bind_eq_some_iff.mp hobject
      have hat' : ((s.put t stack).finish c false).cells[c]? = some { cell with ended := true } := by
        rw [State.finish, List.getElem?_modify_eq]
        exact congrArg (Option.map _) hcell
      obtain ⟨hidle, hgone⟩ := hall c ⟨_, hat', rfl⟩
      refine ⟨fun hc => ?_, ?_⟩
      · have hnone := (hgone hc _ hat').1
        rw [LentHandle.lend, hlent] at hnone
        cases hnone
      · rw [Bool.eq_false_iff, Ne, any_iff] at hidle ⊢
        rintro ⟨f, hf, hreach⟩
        refine hidle ⟨f, put_tail_in hat (fun heq => ?_) hf, hreach⟩
        rw [heq] at hreach
        cases hreach
    · intro hquiet
      refine shut_finish hat hshut ?_
      rintro ⟨cell, hcell, -⟩
      have hidle : s.any (Frame.reaches c) = false ∧
          (c ∈ s.handles → ((s.cells[c]?).bind Cell.lent).isNone = true) := by
        rcases hquiet with hnone | ⟨hc, hidle⟩
        · rw [State.finish, List.getElem?_modify_eq] at hcell
          obtain ⟨old, hold, rfl⟩ := Option.map_eq_some_iff.mp hcell
          refine ⟨(hshut c ⟨old, hold, ?_⟩).idle, fun _ => hnone⟩
          refine (hnested.running c old hold).resolve_right fun hrunning => hrunning.1 ?_
          exact Option.isNone_iff_eq_none.mp (by simpa [show s.cells[c]? = some old from hold] using hnone)
        · exact ⟨hidle, fun hin => absurd hin hc⟩
      refine ⟨?_, fun hc cell' hcell' => ?_⟩
      · rw [Bool.eq_false_iff, Ne, any_iff] at *
        exact fun ⟨f, hf, hreach⟩ => hidle.1 ⟨f, in_of_put_tail hat hf, hreach⟩
      · rw [State.finish, List.getElem?_modify_eq] at hcell'
        obtain ⟨old, hold, rfl⟩ := Option.map_eq_some_iff.mp hcell'
        have hnone : old.lent = none := by
          simpa [show s.cells[c]? = some old from hold] using hidle.2 hc
        simp [LentHandle.lend, LentHandle.call, hnone]

/-- In every run, objects are reached during their lends exactly where no share's closure unwinds with
the object in its cell and a handle left or a call on its way. -/
theorem confined_iff_clean (acts : List (Action Object)) (s : State Object)
    (h : Lib.run step {} acts = some s) :
    (∀ before after m, acts = before ++ after → Lib.run step {} before = some m → Confined m) ↔
      Lib.run (Lib.only (fun s a => s.clean a = true) step) {} acts = some s := by
  have hstart : Nested ({} : State Object) ∧ ∀ c, Over ({} : State Object) c → Shut ({} : State Object) c := by
    refine ⟨⟨fun _ hstack => ?_, fun _ _ hcell => ?_⟩, fun _ hover => ?_⟩
    · cases hstack
    · cases hcell
    · obtain ⟨_, hcell, -⟩ := hover
      cases hcell
  rw [← Lib.all_prefixes_iff (fun s a s' hs hstep => shut_step_iff hs hstep) hstart h]
  refine forall_congr' fun before => forall_congr' fun after => forall_congr' fun m =>
    forall_congr' fun _ => forall_congr' fun hm => ?_
  have hnested := nested_step.run hstart.1 hm
  rw [and_iff_right hnested, confined_iff hnested]

/-- A lend of an object with a clone left: the closure returns. -/
theorem confined_returned :
    Lib.run step ({} : State Unit) [.spawn, .share 0 (), .clone 0, .leave 0 false, .call 0 0] =
      some ⟨[⟨none, none, true⟩], [0, 0], [[]]⟩ ∧
    Confined (⟨[⟨none, none, true⟩], [0, 0], [[]]⟩ : State Unit) :=
  have hrun := rfl
  ⟨hrun, (confined_iff_clean _ _ hrun).mpr rfl _ [] _ (List.append_nil _).symm hrun⟩

/-- A closure that gave a clone of its handle away unwinds, and the clone calls the object. -/
theorem not_confined_unwound : ¬ ∀ acts (s : State Unit), Lib.run step {} acts = some s → Confined s := by
  intro hall
  have hrun : Lib.run step ({} : State Unit)
      [.spawn, .spawn, .share 0 (), .clone 0, .drop 0, .leave 0 true, .call 1 0] =
        some ⟨[⟨some (), none, true⟩], [0], [[], [.call 0]]⟩ := rfl
  have hshut := hall _ _ hrun 0 0 ⟨_, rfl, rfl⟩ .refl
  exact absurd hshut.idle (by decide)

end State

end Guatiao.Table.Lending
