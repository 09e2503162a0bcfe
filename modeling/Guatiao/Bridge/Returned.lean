import Guatiao.Bridge.Calling

/-!
# Objects come back to their handles

An object taken out of a script's handle for a call goes back to the handle, unless the callee took
it over. What is handed over leaves what was prepared just before the call, so a call that is refused
then, before it is made, destroys it.
-/

namespace Guatiao.Bridge

open Remote (Pass ArgType)
open Table

/-- Where the objects of a call went: to the handler, or destroyed though no handler answered them. -/
def fate (w : World) (events : List Event) : List ObjectRaw :=
  objectsIn (keptIn events) ++ (objectsIn (releasedIn events)).diff (objectsIn (answeredIn w events))

/-- What a script's call prepares, where its slot is one and its arguments are as many as that
takes. -/
def prepared (handles : Handles) (me slot : ℕ) (given : List Given) : Option PreparedArgs :=
  ((handles me).kind.slots[slot]?.filter fun s => given.length = s.args.length).map fun s =>
    prepareAll s handles 0 (s.args.zip given)

/-- The objects a script's call took out of their handles. -/
def takenOut (handles : Handles) (me slot : ℕ) (given : List Given) : List (ℕ × ObjectRaw) :=
  ((prepared handles me slot given).map fun p => p.args.filterMap PreparedArg.out).getD []

/-- What crosses to the call. -/
def PreparedArgs.crossing (host : Host) (p : PreparedArgs) : List Arg :=
  p.args.map fun arg => (arg.cross host.lends).1

/-- Nothing was refused while preparing, and the call is made. -/
def PreparedArgs.Reached (host : Host) (me slot : ℕ) (kind : KindDescription) (p : PreparedArgs) :
    Prop :=
  p.refused = none ∧ Bridge.Reached host kind slot (p.crossing host) (p.handles me).held

open Classical in
/-- The objects the callee took over: those handed over, by a call that was made. -/
noncomputable def takenOver (host : Host) (handles : Handles) (me slot : ℕ) (given : List Given) :
    List (ℕ × ObjectRaw) :=
  ((prepared handles me slot given).map fun p =>
    if p.Reached host me slot (handles me).kind then p.args.filterMap PreparedArg.handedOver
    else []).getD []

/-- Objects come back: what the callee did not take over is in its handle as before, and what it took
over is out of it, and with the handler or destroyed, each once and nothing else. -/
structure ComesBack (w : World) (handles : Handles) (taken gone : List (ℕ × ObjectRaw)) (run : Run) :
    Prop where
  back : ∀ t ∈ taken, t ∉ gone → run.handles t.1 = handles t.1
  left : ∀ t ∈ gone, (run.handles t.1).held = .object none
  once : (fate w run.events).Perm (gone.map Prod.snd)

section Prepare

variable {handles handles' : Handles} {arg : PreparedArg} {what : String}

/-- What preparing an argument does to the handles: the object it holds is out of its own. -/
inductive Took (handles : Handles) (arg : PreparedArg) : Handles → Prop
  | nothing (h : arg.out = none) : Took handles arg handles
  | object {h : ℕ} {o : ObjectRaw} (hout : arg.out = some (h, o))
      (hheld : (handles h).held = .object (some o)) :
      Took handles arg (Function.update handles h { handles h with held := .object none })

theorem took_argument {h : ℕ} {kind : String} {pass : Pass}
    (hok : argument handles h kind pass what = .ok (arg, handles')) : Took handles arg handles' := by
  simp only [argument] at hok
  split at hok
  · cases hok
  · cases hheld : (handles h).held with
    | provider remote => simp [hheld] at hok
    | lent lend =>
      cases pass <;> simp only [hheld] at hok <;> cases hok
      exact .nothing rfl
    | object o =>
      cases o with
      | none => simp [hheld] at hok
      | some taken =>
        simp only [hheld] at hok
        cases hok
        refine .object ?_ hheld
        split <;> rfl

theorem took_prepare {ty : ArgType} {given : Given}
    (hok : prepare handles ty given what = .ok (arg, handles')) : Took handles arg handles' := by
  unfold prepare at hok
  split at hok
  · exact took_argument hok
  · cases hok
  · obtain ⟨⟨p, hp⟩, -, heq⟩ := Lib.map_eq_ok.mp hok
    cases heq
    refine .nothing ?_
    cases p <;> first | rfl | cases hp
  · cases hok

theorem unmixed_prepare {ty : ArgType} {given : Given} (lends : ℕ → Option ObjectRaw)
    (hok : prepare handles ty given what = .ok (arg, handles')) : ¬ Mixed ty (arg.cross lends).1 := by
  intro hmixed
  generalize hty : ty = ty', hcross : (arg.cross lends).1 = crossed at hmixed
  cases hmixed with
  | mk kind o =>
    subst hty
    cases given with
    | plain read => cases hok
    | handle h =>
      have hok : argument handles h kind .taken what = .ok (arg, handles') := hok
      simp only [argument] at hok
      split at hok
      · cases hok
      · cases hheld : (handles h).held with
        | provider remote => simp [hheld] at hok
        | lent lend => simp [hheld] at hok
        | object held =>
          cases held with
          | none => simp [hheld] at hok
          | some taken =>
            simp only [hheld, if_true] at hok
            cases hok
            cases hcross

/-- What preparing arguments does to the handles: each object held is out of a handle of its own. -/
structure TookAll (handles : Handles) (args : List PreparedArg) (handles' : Handles) : Prop where
  held : ∀ t ∈ args.filterMap PreparedArg.out, (handles t.1).held = .object (some t.2)
  emptied : ∀ t ∈ args.filterMap PreparedArg.out,
    handles' t.1 = { handles t.1 with held := .object none }
  others : ∀ h, h ∉ (args.filterMap PreparedArg.out).map Prod.fst → handles' h = handles h
  once : ((args.filterMap PreparedArg.out).map Prod.fst).Nodup

theorem TookAll.nil : TookAll handles [] handles where
  held _ ht := absurd ht List.not_mem_nil
  emptied _ ht := absurd ht List.not_mem_nil
  others _ _ := rfl
  once := List.nodup_nil

theorem TookAll.cons {args : List PreparedArg} {handles'' : Handles}
    (hone : Took handles arg handles') (hrest : TookAll handles' args handles'') :
    TookAll handles (arg :: args) handles'' := by
  cases hone with
  | nothing hout =>
    obtain ⟨held, emptied, others, once⟩ := hrest
    constructor <;> rwa [List.filterMap_cons_none hout]
  | @object h o hout hheld =>
    have hfresh : h ∉ (args.filterMap PreparedArg.out).map Prod.fst := by
      intro hmem
      obtain ⟨t, ht, rfl⟩ := List.mem_map.mp hmem
      have := hrest.held t ht
      rw [Function.update_self] at this
      cases this
    have hne {t : ℕ × ObjectRaw} (ht : t ∈ args.filterMap PreparedArg.out) : t.1 ≠ h :=
      fun heq => hfresh (heq ▸ List.mem_map_of_mem ht)
    have hcons : (arg :: args).filterMap PreparedArg.out =
        (h, o) :: args.filterMap PreparedArg.out := List.filterMap_cons_some hout
    constructor
    · rw [hcons]
      intro t ht
      rcases List.mem_cons.mp ht with rfl | ht
      · exact hheld
      · simpa [Function.update_of_ne (hne ht)] using hrest.held t ht
    · rw [hcons]
      intro t ht
      rcases List.mem_cons.mp ht with rfl | ht
      · simpa using hrest.others h hfresh
      · simpa [Function.update_of_ne (hne ht)] using hrest.emptied t ht
    · rw [hcons]
      intro h' hnot
      rw [List.map_cons, List.mem_cons, not_or] at hnot
      obtain ⟨hne', hnot⟩ := hnot
      rw [hrest.others h' hnot, Function.update_of_ne hne']
    · rw [hcons]
      exact List.nodup_cons.mpr ⟨hfresh, hrest.once⟩

theorem prepareAll_took (s : SlotDescription) (handles : Handles) (i : ℕ)
    (l : List (ArgType × Given)) :
    TookAll handles (prepareAll s handles i l).args (prepareAll s handles i l).handles := by
  induction l generalizing handles i with
  | nil => exact .nil
  | cons one rest ih =>
    obtain ⟨ty, given⟩ := one
    unfold prepareAll
    split
    · exact .nil
    next arg handles' hok => exact .cons (took_prepare hok) (ih handles' (i + 1))

theorem prepareAll_unmixed (s : SlotDescription) (lends : ℕ → Option ObjectRaw) (handles : Handles)
    (i : ℕ) {tys : List ArgType} {given : List Given} (hlen : given.length = tys.length)
    (hok : (prepareAll s handles i (tys.zip given)).refused = none) :
    List.Forall₂ (fun ty arg => ¬ Mixed ty arg) tys
      ((prepareAll s handles i (tys.zip given)).args.map fun arg => (arg.cross lends).1) := by
  induction tys generalizing handles i given with
  | nil => exact .nil
  | cons ty tys ih =>
    cases given with
    | nil => cases hlen
    | cons one given =>
      rw [List.zip_cons_cons, prepareAll] at hok ⊢
      split at hok
      · cases hok
      next arg handles' hprepare =>
        exact .cons (unmixed_prepare lends hprepare) (ih handles' (i + 1) (by simpa using hlen) hok)

end Prepare

theorem giveBack_spec {args : List PreparedArg} {handles : Handles}
    (hempty : ∀ t ∈ args.filterMap PreparedArg.out, (handles t.1).held = .object none)
    (honce : ((args.filterMap PreparedArg.out).map Prod.fst).Nodup) :
    (giveBack args handles).2 = [] ∧
      (∀ t ∈ args.filterMap PreparedArg.out, (giveBack args handles).1 t.1 =
        { handles t.1 with held := .object (some t.2) }) ∧
      ∀ h, h ∉ (args.filterMap PreparedArg.out).map Prod.fst →
        (giveBack args handles).1 h = handles h := by
  induction args generalizing handles with
  | nil => exact ⟨rfl, fun _ ht => absurd ht List.not_mem_nil, fun _ _ => rfl⟩
  | cons arg args ih =>
    cases hout : arg.out with
    | none =>
      rw [List.filterMap_cons_none hout] at hempty honce ⊢
      simpa only [giveBack, hout] using ih hempty honce
    | some t =>
      obtain ⟨home, o⟩ := t
      rw [List.filterMap_cons_some hout] at hempty honce ⊢
      obtain ⟨hfresh, honce⟩ := List.nodup_cons.mp honce
      have hput : putBack handles home o =
          (Function.update handles home { handles home with held := .object (some o) }, []) := by
        simp only [putBack, hempty _ List.mem_cons_self]
      have hne {t : ℕ × ObjectRaw} (ht : t ∈ args.filterMap PreparedArg.out) : t.1 ≠ home :=
        fun heq => hfresh (List.mem_map.mpr ⟨t, ht, heq⟩)
      have hstill : ∀ t ∈ args.filterMap PreparedArg.out, (Function.update handles home
          { handles home with held := .object (some o) } t.1).held = .object none := by
        intro t ht
        rw [Function.update_of_ne (hne ht)]
        exact hempty t (List.mem_cons_of_mem _ ht)
      obtain ⟨hnone, hback, hothers⟩ := ih hstill honce
      simp only [giveBack, hout, hput, List.nil_append]
      refine ⟨hnone, ?_, ?_⟩
      · intro t ht
        rcases List.mem_cons.mp ht with rfl | ht
        · rw [hothers home hfresh, Function.update_self]
        · rw [hback t ht, Function.update_of_ne (hne ht)]
      · intro h hnot
        rw [List.map_cons, List.mem_cons, not_or] at hnot
        obtain ⟨hne', hnot⟩ := hnot
        rw [hothers h hnot, Function.update_of_ne hne']

theorem giveBack_took {handles handles' : Handles} {args args' : List PreparedArg}
    (htook : TookAll handles args handles')
    (hsub : (args'.filterMap PreparedArg.out).Subperm (args.filterMap PreparedArg.out)) :
    (giveBack args' handles').2 = [] ∧
      (∀ t ∈ args'.filterMap PreparedArg.out, (giveBack args' handles').1 t.1 = handles t.1) ∧
      ∀ t ∈ args.filterMap PreparedArg.out, t ∉ args'.filterMap PreparedArg.out →
        ((giveBack args' handles').1 t.1).held = .object none := by
  have hempty : ∀ t ∈ args.filterMap PreparedArg.out, (handles' t.1).held = .object none := by
    intro t ht
    rw [htook.emptied t ht]
  obtain ⟨l, hperm, hsublist⟩ := hsub
  have honce : ((args'.filterMap PreparedArg.out).map Prod.fst).Nodup :=
    (hperm.map Prod.fst).nodup_iff.mp (htook.once.sublist (hsublist.map Prod.fst))
  have hmem {t : ℕ × ObjectRaw} (ht : t ∈ args'.filterMap PreparedArg.out) :
      t ∈ args.filterMap PreparedArg.out := hsublist.subset (hperm.mem_iff.mpr ht)
  obtain ⟨hnone, hback, hothers⟩ := giveBack_spec (fun t ht => hempty t (hmem ht)) honce
  refine ⟨hnone, ?_, ?_⟩
  · intro t ht
    rw [hback t ht, htook.emptied t (hmem ht), ← htook.held t (hmem ht)]
  · intro t ht hnot
    rw [hothers t.1, hempty t ht]
    intro hin
    obtain ⟨t', ht', heq⟩ := List.mem_map.mp hin
    obtain rfl := List.inj_on_of_nodup_map htook.once (hmem ht') ht heq
    exact hnot ht'

section Crossing

variable (lends : ℕ → Option ObjectRaw)

/-- The object an argument keeps for its handle as it crosses. -/
def PreparedArg.kept : PreparedArg → Option (ℕ × ObjectRaw)
  | .lentOwned (some o) home => some (home, o)
  | _ => none

theorem out_cross (arg : PreparedArg) : (arg.cross lends).2.out = arg.kept := by
  cases arg with
  | object o home => cases o <;> rfl
  | lentOwned o home => cases o <;> rfl
  | _ => rfl

theorem objectsIn_cross (arg : PreparedArg) :
    objectsIn (arg.cross lends).1.handed = arg.handedOver.toList.map Prod.snd := by
  cases arg with
  | object o home => cases o <;> rfl
  | lentOwned o home => cases o <;> rfl
  | lentPassed lend =>
    simp only [PreparedArg.cross]
    cases lends lend <;> rfl
  | _ => rfl

theorem filterMap_out_cross (args : List PreparedArg) :
    (args.map fun arg => (arg.cross lends).2).filterMap PreparedArg.out =
      args.filterMap PreparedArg.kept := by
  rw [List.filterMap_map]
  exact List.filterMap_congr fun arg _ => out_cross lends arg

theorem objectsIn_crossing (args : List PreparedArg) :
    objectsIn ((args.map fun arg => (arg.cross lends).1).flatMap Arg.handed) =
      (args.filterMap PreparedArg.handedOver).map Prod.snd := by
  induction args with
  | nil => rfl
  | cons arg args ih =>
    rw [List.map_cons, List.flatMap_cons, objectsIn_append, ih, objectsIn_cross]
    cases hover : arg.handedOver with
    | none => simp [List.filterMap_cons_none hover]
    | some t => simp [List.filterMap_cons_some hover]

open List in
theorem out_perm (args : List PreparedArg) :
    args.filterMap PreparedArg.out ~
      args.filterMap PreparedArg.handedOver ++ args.filterMap PreparedArg.kept := by
  induction args with
  | nil => exact .refl _
  | cons arg args ih =>
    cases arg with
    | object o home =>
      cases o with
      | none => exact ih
      | some o => exact ih.cons (home, o)
    | lentOwned o home =>
      cases o with
      | none => exact ih
      | some o => exact (ih.cons (home, o)).trans List.perm_middle.symm
    | _ => exact ih

end Crossing

section Fate

variable {w : World} {args : List Arg} {called : Called}

theorem releasedIn_released (owned : List Owned) : releasedIn (owned.map .released) = owned :=
  (Lib.Ledger.mk.inj (ledger_released owned)).1

theorem fate_released (owned : List Owned) (w : World) :
    fate w (owned.map .released) = objectsIn owned := by
  simp [fate, keptIn, answeredIn, releasedIn_released]

theorem fate_answered {events : List Event}
    (h : (objectsIn (releasedIn events)).Subperm (objectsIn (answeredIn w events))) :
    fate w events = objectsIn (keptIn events) := by
  have hself (l : List ObjectRaw) : l.diff l = [] := by
    induction l with
    | nil => rfl
    | cons o l ih => rw [List.diff_cons, List.erase_cons_head, ih]
  have hnone := h.diff_right (objectsIn (answeredIn w events))
  rw [hself, List.subperm_nil] at hnone
  rw [fate, hnone, List.append_nil]

/-- Of a call that is made, what is handed over is the handler's or destroyed, whether or not what
was lent is written back. -/
theorem fate_written (writeBack : Except ProviderError Unit) (h : Ended w args called) :
    (fate w (written writeBack called).events).Perm (objectsIn (args.flatMap Arg.handed)) := by
  cases h with
  | @dropped e gone hperm =>
    have hevents : (written writeBack ⟨.error e, gone.map .released⟩).events =
        gone.map .released := by
      cases writeBack with
      | ok u => rfl
      | error e => exact List.append_nil _
    rw [hevents, fate_released]
    exact hperm.filterMap _
  | @served _ ctx slot seen hserved hseen hbooks =>
    have hkept {events : List Event} (h : servedIn events = [(ctx, slot, seen)]) :
        objectsIn (keptIn events) = objectsIn (args.flatMap Arg.handed) := by
      simp [keptIn, h, hseen]
    cases writeBack with
    | ok u =>
      have hreleased : (objectsIn (releasedIn called.events)).Subperm
          (objectsIn (answeredIn w called.events)) := by
        rw [objectsIn_append] at hbooks
        exact (List.sublist_append_left _ _).subperm.trans hbooks
      rw [written, fate_answered hreleased, hkept hserved]
    | error e =>
      have hserved' : servedIn (written (.error e) called).events = [(ctx, slot, seen)] := by
        rw [written, servedIn_append, servedIn_released, List.append_nil, hserved]
      have hreleased : releasedIn (written (.error e) called).events =
          releasedIn called.events ++ ownedOf Answer.handed called.result := by
        rw [written, releasedIn, List.filterMap_append]
        exact congrArg _ (releasedIn_released _)
      have hanswered : answeredIn w (written (.error e) called).events =
          answeredIn w called.events := by
        rw [answeredIn, answeredIn, hserved', hserved]
      rw [fate_answered (by rwa [hreleased, hanswered]), hkept hserved']

end Fate

section Run

variable {host : Host} {handles : Handles} {me slot : ℕ} {given : List Given} {p : PreparedArgs}

variable (host) in
theorem callSlot_unprepared (hp : prepared handles me slot given = none) :
    ∃ e, callSlot host handles me slot given = some ⟨.error e, handles, []⟩ := by
  unfold callSlot
  dsimp only
  split
  · exact ⟨_, rfl⟩
  next s hs =>
    split
    · exact ⟨_, rfl⟩
    next hlen =>
      simp [prepared, hs, Option.filter, not_not.mp hlen] at hp

variable (host) in
theorem callSlot_prepared (hp : prepared handles me slot given = some p) :
    ∃ s, (handles me).kind.slots[slot]? = some s ∧ given.length = s.args.length ∧
      p = prepareAll s handles 0 (s.args.zip given) ∧
      callSlot host handles me slot given =
        match p.refused with
        | some why =>
          some ⟨.error (badValue why), (giveBack p.args p.handles).1,
            (giveBack p.args p.handles).2.map fun o => .released (.object o)⟩
        | none =>
          ((p.handles me).held.call host (handles me).kind slot (p.crossing host)).map fun called =>
            let back := giveBack (p.args.map fun arg => (arg.cross host.lends).2) p.handles
            ⟨(written host.writeBack called).result, back.1,
              (written host.writeBack called).events ++ back.2.map fun o => .released (.object o)⟩ := by
  obtain ⟨s, hs, hprepare⟩ := Option.map_eq_some_iff.mp hp
  obtain ⟨hs, hlen⟩ := Option.filter_eq_some_iff.mp hs
  have hlen : given.length = s.args.length := by simpa using hlen
  refine ⟨s, hs, hlen, hprepare.symm, ?_⟩
  subst hprepare
  simp only [callSlot, hs, hlen, ne_eq, not_true_eq_false, if_false, List.map_map]
  rfl

theorem comesBack_refused {why : String} (w : World) (htook : TookAll handles p.args p.handles) :
    ComesBack w handles (p.args.filterMap PreparedArg.out) []
      ⟨.error (badValue why), (giveBack p.args p.handles).1,
        (giveBack p.args p.handles).2.map fun o => .released (.object o)⟩ := by
  obtain ⟨hnone, hback, -⟩ := giveBack_took htook (.refl _)
  refine ⟨fun t ht _ => hback t ht, fun t ht => absurd ht List.not_mem_nil, ?_⟩
  simp [hnone, fate, keptIn, answeredIn, releasedIn, servedIn]

variable (host) in
theorem comesBack_crossed (w : World) (result : Except ProviderError Answer) {events : List Event}
    (htook : TookAll handles p.args p.handles)
    (honce : (fate w events).Perm
      ((p.args.filterMap PreparedArg.handedOver).map Prod.snd)) :
    let back := giveBack (p.args.map fun arg => (arg.cross host.lends).2) p.handles
    ComesBack w handles (p.args.filterMap PreparedArg.out)
      (p.args.filterMap PreparedArg.handedOver)
      ⟨result, back.1, events ++ back.2.map fun o => .released (.object o)⟩ := by
  have hperm := out_perm p.args
  have hsub : ((p.args.map fun arg => (arg.cross host.lends).2).filterMap PreparedArg.out).Subperm
      (p.args.filterMap PreparedArg.out) := by
    rw [filterMap_out_cross]
    exact (List.sublist_append_right _ _).subperm.trans hperm.symm.subperm
  obtain ⟨hnone, hback, hleft⟩ := giveBack_took htook hsub
  rw [filterMap_out_cross] at hback hleft
  have hnodup := hperm.nodup_iff.mp htook.once.of_map
  intro back
  refine ⟨?_, ?_, ?_⟩
  · intro t ht hnot
    exact hback t ((List.mem_append.mp (hperm.mem_iff.mp ht)).resolve_left hnot)
  · intro t ht
    refine hleft t (hperm.mem_iff.mpr (List.mem_append_left _ ht)) fun hkept => ?_
    exact List.disjoint_of_nodup_append hnodup ht hkept
  · simpa [back, hnone] using honce

/-- Objects come back from a script's call, each the callee's or its handle's, exactly where a call
that hands an object over and prepares every argument is made. -/
theorem callSlot_comesBack_iff (htells : host.Tells (handles me).kind) :
    (∃ run, callSlot host handles me slot given = some run ∧
        ComesBack host.world handles (takenOut handles me slot given)
          (takenOver host handles me slot given) run) ↔
      ∀ p, prepared handles me slot given = some p → p.refused = none →
        p.args.filterMap PreparedArg.handedOver ≠ [] → p.Reached host me slot (handles me).kind := by
  cases hp : prepared handles me slot given with
  | none =>
    obtain ⟨e, hcall⟩ := callSlot_unprepared host hp
    refine iff_of_true ⟨_, hcall, ?_⟩ fun p h => by cases h
    simp only [takenOut, takenOver, hp, Option.map_none, Option.getD_none]
    refine ⟨fun t ht => absurd ht List.not_mem_nil, fun t ht => absurd ht List.not_mem_nil, ?_⟩
    exact .refl _
  | some p =>
    obtain ⟨s, hs, hlen, hprepare, hcall⟩ := callSlot_prepared host hp
    have htook : TookAll handles p.args p.handles := hprepare ▸ prepareAll_took ..
    simp only [takenOut, takenOver, hp, Option.map_some, Option.getD_some, Option.some.injEq,
      forall_eq', hcall]
    cases hrefused : p.refused with
    | some why =>
      have hnot : ¬ p.Reached host me slot (handles me).kind := fun h => by
        rw [h.1] at hrefused
        cases hrefused
      rw [if_neg hnot]
      exact iff_of_true ⟨_, rfl, comesBack_refused _ htook⟩ fun h => by cases h
    | none =>
      dsimp only
      by_cases hreached : p.Reached host me slot (handles me).kind
      · have hunmixed := prepareAll_unmixed s host.lends handles 0 hlen (hprepare ▸ hrefused)
        rw [← hprepare] at hunmixed
        obtain ⟨called, hmade, hended⟩ := call_ended htells hreached.2 fun s' hs' => by
          rw [hs] at hs'
          cases hs'
          exact hunmixed
        rw [if_pos hreached, hmade]
        refine iff_of_true ⟨_, rfl, comesBack_crossed host _ _ htook ?_⟩ fun _ _ => hreached
        rw [← objectsIn_crossing host.lends]
        exact fate_written host.writeBack hended
      · have hnot : ¬ Bridge.Reached host (handles me).kind slot (p.crossing host)
            (p.handles me).held := fun h => hreached ⟨hrefused, h⟩
        obtain ⟨e, hdropped⟩ := call_dropped htells hnot
        rw [if_neg hreached, hdropped]
        have hended : Ended host.world (p.crossing host)
            ⟨.error e, ((p.crossing host).flatMap Arg.handed).map .released⟩ := .dropped (.refl _)
        have hfate := fate_written host.writeBack hended
        rw [PreparedArgs.crossing, objectsIn_crossing host.lends] at hfate
        have hback := comesBack_crossed host _ (written host.writeBack
          ⟨.error e, ((p.crossing host).flatMap Arg.handed).map .released⟩).result htook hfate
        constructor
        · rintro ⟨run, hrun, hcomes⟩ - hover
          cases hrun
          obtain ⟨t, ht⟩ := List.exists_mem_of_ne_nil _ hover
          have hin := (out_perm p.args).mem_iff.mpr (List.mem_append_left _ ht)
          have hleft := hback.left t ht
          have hheld := htook.held t hin
          rw [← hcomes.back t hin List.not_mem_nil] at hheld
          cases hheld.symm.trans hleft
        · intro h
          refine ⟨_, rfl, ?_⟩
          have hnone : p.args.filterMap PreparedArg.handedOver = [] := by
            by_contra hover
            exact hreached (h rfl hover)
          rwa [hnone] at hback

end Run

/-- A kind of one slot, that takes a box over. -/
def sink : KindDescription where
  name := "sink"
  floorHash := 0
  object := false
  slots := [⟨"put", true, false, [.object "box" .taken], none, false, by simp [ArgTypeOk]⟩]

/-- A host with the table of a sink, whose lends are over. -/
def sinkHost : Host where
  world := plain
  tables a := if a = 1 then some ⟨16, 0, [some (.slot 0)]⟩ else none
  lends _ := none
  writeBack := .ok ()

/-- A script's handle on a sink, and its handle on a box. -/
def sinkHandles (held : Held) : Handles := fun h =>
  if h = 0 then ⟨sink, held⟩ else ⟨⟨"box", 1, true, []⟩, .object (some ⟨2, 8, 5⟩)⟩

theorem sinkHost_tells : sinkHost.Tells sink := by
  intro a table htable _
  refine ⟨fun _ => true, ?_⟩
  simp only [sinkHost] at htable
  split at htable
  · cases htable
    rfl
  · cases htable

/-- A box put in a sink that is there is the sink's. -/
theorem callSlot_comesBack_sink :
    ∃ run, callSlot sinkHost (sinkHandles (.provider ⟨1, 16, 7⟩)) 0 0 [.handle 1] = some run ∧
      ComesBack sinkHost.world (sinkHandles (.provider ⟨1, 16, 7⟩))
        (takenOut (sinkHandles (.provider ⟨1, 16, 7⟩)) 0 0 [.handle 1])
        (takenOver sinkHost (sinkHandles (.provider ⟨1, 16, 7⟩)) 0 0 [.handle 1]) run := by
  refine (callSlot_comesBack_iff sinkHost_tells).mpr ?_
  intro p hp hrefused _
  cases hp
  refine ⟨rfl, ⟨1, 16, 7⟩, ⟨16, 0, [some (.slot 0)]⟩, _, rfl, rfl, rfl, ?_, ?_⟩
  · exact ⟨rfl, by decide, rfl⟩
  · exact .cons (.inl (.object _ _)) .nil

/-- A box put in a sink that was lent and whose lend is over is destroyed, and its handle is left
empty. -/
theorem not_comesBack_sink :
    ¬ ∃ run, callSlot sinkHost (sinkHandles (.lent 0)) 0 0 [.handle 1] = some run ∧
      ComesBack sinkHost.world (sinkHandles (.lent 0))
        (takenOut (sinkHandles (.lent 0)) 0 0 [.handle 1])
        (takenOver sinkHost (sinkHandles (.lent 0)) 0 0 [.handle 1]) run := by
  rintro ⟨run, hrun, hcomes⟩
  have hover : takenOver sinkHost (sinkHandles (.lent 0)) 0 0 [.handle 1] = [] := by
    refine if_neg ?_
    rintro ⟨-, o, table, s, ho, -⟩
    cases ho
  have hback := hcomes.back (1, ⟨2, 8, 5⟩) List.mem_cons_self (hover ▸ List.not_mem_nil)
  cases hrun
  cases congrArg Handle.held hback

end Guatiao.Bridge
