import Guatiao.Lib.AssocList

/-!
# Chains of links, and whether they come back

Each element has at most one successor, so following them from an element either ends or comes back
to an element met before. A search over many starts walks each element once: a chain that ended is
not walked again.
-/

namespace Guatiao.Lib

variable {α : Type*}

section Follow

variable (next : α → Option α)

/-- The element so many steps on, none when the chain has ended by then. -/
def follow : ℕ → α → Option α
  | 0, a => some a
  | n + 1, a => (follow n a).bind next

/-- The chain from an element comes to an end. -/
def Ends (a : α) : Prop := ∃ n, follow next n a = none

/-- The chain from an element comes back to an element it has met. -/
def Returns (a : α) : Prop := ∃ i j x, i < j ∧ follow next i a = some x ∧ follow next j a = some x

variable {next}

theorem follow_add (m n : ℕ) (a : α) :
    follow next (m + n) a = (follow next m a).bind (follow next n) := by
  induction n with
  | zero => cases follow next m a <;> rfl
  | succ n ih =>
    show (follow next (m + n) a).bind next = _
    rw [ih, Option.bind_assoc]
    rfl

theorem follow_succ (n : ℕ) (a : α) : follow next (n + 1) a = (next a).bind (follow next n) := by
  rw [Nat.add_comm, follow_add]
  rfl

theorem follow_eq_none {m n : ℕ} {a : α} (hle : m ≤ n) (h : follow next m a = none) :
    follow next n a = none := by
  obtain ⟨k, rfl⟩ := Nat.exists_eq_add_of_le hle
  rw [follow_add, h, Option.bind_none]

theorem follow_lap {d : ℕ} {x : α} (h : follow next d x = some x) (laps : ℕ) :
    follow next (laps * d) x = some x := by
  induction laps with
  | zero => rw [Nat.zero_mul, follow]
  | succ laps ih => rw [Nat.succ_mul, follow_add, ih, Option.bind_some, h]

theorem Returns.not_ends {a : α} (h : Returns next a) : ¬ Ends next a := by
  rintro ⟨n, hn⟩
  obtain ⟨i, j, x, hij, hi, hj⟩ := h
  obtain ⟨d, rfl⟩ := Nat.exists_eq_add_of_lt hij
  have hlap : follow next (d + 1) x = some x := by
    rw [Nat.add_assoc, follow_add, hi, Option.bind_some] at hj
    exact hj
  have hfar : follow next (i + n * (d + 1)) a = some x := by
    rw [follow_add, hi, Option.bind_some, follow_lap hlap]
  have hle : n ≤ i + n * (d + 1) :=
    Nat.le_add_left_of_le (Nat.le_mul_of_pos_right n (Nat.succ_pos d))
  rw [follow_eq_none hle hn] at hfar
  cases hfar

theorem Ends.step {a b : α} (hnext : next a = some b) (h : Ends next b) : Ends next a := by
  obtain ⟨n, hn⟩ := h
  exact ⟨n + 1, by rw [follow_succ, hnext, Option.bind_some, hn]⟩

theorem ends_of_next {a : α} (hnext : next a = none) : Ends next a :=
  ⟨1, by rw [follow_succ, hnext, Option.bind_none]⟩

theorem Returns.next_isSome {a : α} (h : Returns next a) : (next a).isSome := by
  by_contra hnone
  rw [Bool.not_eq_true, Option.isSome_eq_false_iff, Option.isNone_iff_eq_none] at hnone
  exact h.not_ends (ends_of_next hnone)

theorem Returns.exists_lap {a : α} (h : Returns next a) :
    ∃ x y, next y = some x ∧ Returns next x := by
  obtain ⟨i, j, x, hij, hi, hj⟩ := h
  obtain ⟨d, rfl⟩ := Nat.exists_eq_add_of_lt hij
  obtain ⟨y, -, hyx⟩ := Option.bind_eq_some_iff.mp (hj : (follow next (i + d) a).bind next = some x)
  rw [Nat.add_assoc, follow_add, hi, Option.bind_some] at hj
  exact ⟨x, y, hyx, 0, d + 1, x, Nat.succ_pos d, rfl, hj⟩

/-- An element the chain from another one has come to, with the ones it has met on the way. -/
def Followed (next : α → Option α) (start : α) (trail : List α) (at_ : α) : Prop :=
  ∃ n, follow next n start = some at_ ∧ ∀ x ∈ trail, ∃ i < n, follow next i start = some x

theorem followed_nil (start : α) : Followed next start [] start :=
  ⟨0, rfl, fun _ hx => absurd hx List.not_mem_nil⟩

theorem Followed.step {start at_ b : α} {trail : List α} (h : Followed next start trail at_)
    (hnext : next at_ = some b) : Followed next start (at_ :: trail) b := by
  obtain ⟨n, hn, htrail⟩ := h
  refine ⟨n + 1, by rw [follow, hn, Option.bind_some, hnext], fun x hx => ?_⟩
  rcases List.mem_cons.mp hx with rfl | hx
  · exact ⟨n, Nat.lt_succ_self n, hn⟩
  · obtain ⟨i, hi, hfollow⟩ := htrail x hx
    exact ⟨i, Nat.lt_succ_of_lt hi, hfollow⟩

theorem Followed.returns {start at_ : α} {trail : List α} (h : Followed next start trail at_)
    (hmet : at_ ∈ trail) : Returns next start := by
  obtain ⟨n, hn, htrail⟩ := h
  obtain ⟨i, hi, hfollow⟩ := htrail at_ hmet
  exact ⟨i, n, at_, hi, hfollow, hn⟩

end Follow

variable [DecidableEq α]

/-- Where the first link from an element leads. -/
def linked (links : List (α × α)) (a : α) : Option α := AssocList.get a links

/-- How many links start at none of some elements. -/
def linksLeft {β : Type*} (links : List (α × β)) (met : List α) : ℕ :=
  (links.filter fun l => l.1 ∉ met).length

theorem linksLeft_lt {β : Type*} {links : List (α × β)} {met : List α} {a : α} {b : β}
    (hlink : AssocList.get a links = some b) (hmet : a ∉ met) :
    linksLeft links (a :: met) < linksLeft links met := by
  have hsub : (links.filter fun l => l.1 ∉ a :: met) =
      (links.filter fun l => l.1 ∉ met).filter fun l => l.1 ≠ a := by
    rw [List.filter_filter]
    refine List.filter_congr fun l _ => ?_
    rw [← Bool.decide_and, decide_eq_decide, List.mem_cons, not_or]
  rw [linksLeft, linksLeft, hsub]
  refine List.length_filter_lt_length_iff_exists.mpr ⟨(a, b), ?_, by simp⟩
  rw [List.mem_filter]
  exact ⟨AssocList.mem_of_get hlink, by simpa using hmet⟩

/-- Follows the links from an element up to one that was cleared, or to the end, with the elements
met; or answers the element the chain comes back to. -/
def chase (links : List (α × α)) (cleared trail : List α) (at_ : α) : Except α (List α) :=
  if at_ ∈ cleared then .ok trail
  else if _hmet : at_ ∈ trail then .error at_
  else
    match _hnext : linked links at_ with
    | some successor => chase links cleared (at_ :: trail) successor
    | none => .ok (at_ :: trail)
termination_by linksLeft links trail
decreasing_by exact linksLeft_lt _hnext _hmet

/-- The first element that a chain comes back to, among the chains of some starts. -/
def firstReturn (links : List (α × α)) : List α → List α → Option α
  | _, [] => none
  | cleared, start :: rest =>
    match chase links cleared [] start with
    | .error onCycle => some onCycle
    | .ok trail => firstReturn links (cleared ++ trail) rest

section Search

variable {links : List (α × α)} {cleared trail walked : List α} {start at_ : α}

theorem chase_of_met (hcleared : at_ ∉ cleared) (hmet : at_ ∈ trail) :
    chase links cleared trail at_ = .error at_ := by
  rw [chase, if_neg hcleared, dif_pos hmet]

theorem chase_of_end (hcleared : at_ ∉ cleared) (hmet : at_ ∉ trail)
    (hnext : linked links at_ = none) : chase links cleared trail at_ = .ok (at_ :: trail) := by
  rw [chase, if_neg hcleared, dif_neg hmet]
  split
  · next successor hsome => rw [hnext] at hsome; cases hsome
  · rfl

theorem chase_of_link {successor : α} (hcleared : at_ ∉ cleared) (hmet : at_ ∉ trail)
    (hnext : linked links at_ = some successor) :
    chase links cleared trail at_ = chase links cleared (at_ :: trail) successor := by
  rw [chase, if_neg hcleared, dif_neg hmet]
  split
  · next other hsome => rw [hnext] at hsome; cases hsome; rfl
  · next hnone => rw [hnext] at hnone; cases hnone

theorem returns_of_chase {onCycle : α} (h : chase links cleared trail at_ = .error onCycle)
    (htrail : Followed (linked links) start trail at_) : Returns (linked links) start := by
  induction trail, at_ using chase.induct links cleared with
  | case1 trail at_ hmem =>
    rw [chase, if_pos hmem] at h
    cases h
  | case2 trail at_ hmem hmet => exact htrail.returns hmet
  | case3 trail at_ hmem hmet successor hnext ih =>
    rw [chase_of_link hmem hmet hnext] at h
    exact ih h (htrail.step hnext)
  | case4 trail at_ hmem hmet hnext =>
    rw [chase_of_end hmem hmet hnext] at h
    cases h

theorem ends_of_chase (h : chase links cleared trail at_ = .ok walked)
    (hcleared : ∀ x ∈ cleared, Ends (linked links) x)
    (htrail : Ends (linked links) at_ → ∀ x ∈ trail, Ends (linked links) x) :
    Ends (linked links) at_ ∧ ∀ x ∈ walked, Ends (linked links) x := by
  induction trail, at_ using chase.induct links cleared with
  | case1 trail at_ hmem =>
    rw [chase, if_pos hmem] at h
    cases h
    exact ⟨hcleared at_ hmem, htrail (hcleared at_ hmem)⟩
  | case2 trail at_ hmem hmet =>
    rw [chase_of_met hmem hmet] at h
    cases h
  | case3 trail at_ hmem hmet successor hnext ih =>
    rw [chase_of_link hmem hmet hnext] at h
    have hends := ih h fun hsuccessor x hx => by
      have hat := Ends.step hnext hsuccessor
      rcases List.mem_cons.mp hx with rfl | hx
      · exact hat
      · exact htrail hat x hx
    exact ⟨Ends.step hnext hends.1, hends.2⟩
  | case4 trail at_ hmem hmet hnext =>
    rw [chase_of_end hmem hmet hnext] at h
    cases h
    have hat := ends_of_next hnext
    exact ⟨hat, fun x hx => (List.mem_cons.mp hx).elim (fun heq => heq ▸ hat) (htrail hat x)⟩

theorem firstReturn_isSome_iff {starts : List α}
    (hcleared : ∀ x ∈ cleared, Ends (linked links) x) :
    (firstReturn links cleared starts).isSome ↔ ∃ s ∈ starts, Returns (linked links) s := by
  induction starts generalizing cleared with
  | nil => simp [firstReturn]
  | cons start rest ih =>
    rw [firstReturn]
    cases hchase : chase links cleared [] start with
    | error onCycle =>
      have hreturns := returns_of_chase hchase (followed_nil start)
      exact iff_of_true rfl ⟨start, List.mem_cons_self, hreturns⟩
    | ok trail =>
      have hends := ends_of_chase hchase hcleared fun _ x hx => absurd hx List.not_mem_nil
      show (firstReturn links (cleared ++ trail) rest).isSome ↔ _
      rw [ih fun x hx => (List.mem_append.mp hx).elim (hcleared x) (hends.2 x), List.exists_mem_cons_iff]
      exact (or_iff_right fun hreturns => hreturns.not_ends hends.1).symm

end Search

end Guatiao.Lib
