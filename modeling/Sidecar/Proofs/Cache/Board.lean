import Sidecar.Cache.Flight
import Sidecar.Proofs.Cache.Validity

/-!
# The board of a flight

Callers of one path meet at load slots, and their steps may interleave in any way. What has to be
shown is that the ways in which they can miss each other do no harm: a caller may find nothing, and
come to the table when the slot is gone already; or it may come back to the table with a result when
another slot is in the place of its own.

The argument needs little of a `Flight`: where the callers stand, what the slots hold, which slot is
in the table, and the live handle of the path. These make a `Board`, and `Turn` lists what one step can
do to it. What holds between the steps is `Orderly`, and two of its fields carry the rest:

* `settled`: only the slot in the table can be empty or busy. So there is at most one caller that
  fills a slot, and while it loads nobody else can bring the path in.
* `results`: a slot that is filled with a handle is filled with the live one, and a slot that is filled
  with an error is one for which a load failed. So whoever comes late, to whichever slot, gets what
  everybody gets.

A turn uses up a step of a caller, or the caller rests because another one is filling its slot. Somebody
is always filling it, and who fills a slot does not rest.
-/

set_option autoImplicit false

namespace Sidecar

variable {ι : Type}

/-! ## Callers and slots -/

namespace Caller

/-- The slot that a caller has. -/
def slot? : Caller ι → Option Nat
  | arriving | missed | returned _ => none
  | holding slot | looking slot | loading slot | accepting slot _ | leaving slot _ => some slot

/-- The slot that a caller fills. -/
def fills? : Caller ι → Option Nat
  | looking slot | loading slot | accepting slot _ => some slot
  | _ => none

theorem slot?_of_fills? {c : Caller ι} {slot : Nat} (h : c.fills? = some slot) :
    c.slot? = some slot := by
  cases c with
  | looking _ | loading _ | accepting _ _ => exact h
  | arriving | missed | holding _ | leaving _ _ | returned _ => cases h

/-- The steps that a caller has before it. -/
def remaining : Caller ι → Nat
  | arriving => 7
  | missed => 6
  | holding _ => 5
  | looking _ => 4
  | loading _ => 3
  | accepting .. => 2
  | leaving .. => 1
  | returned _ => 0

end Caller

/-! ## What one step can do -/

/-- What the callers of a path know of each other. -/
structure Board (ι : Type) where
  callers : List (Caller ι)
  slots : List (LoadSlot ι)
  current : Option Nat
  live : Option (Handle ι)

namespace Board

def move (b : Board ι) (i : Nat) (caller : Caller ι) : Board ι :=
  { b with callers := b.callers.set i caller }

def fill (b : Board ι) (i slot : Nat) (result : Except Error (Handle ι)) : Board ι :=
  { b with slots := b.slots.set slot (.filled result) }.move i (.leaving slot result)

/-- The caller is done, or somebody else is filling its slot. -/
inductive Rests (b : Board ι) (i : Nat) : Prop
  | absent (at_ : b.callers[i]? = none)
  | done (result : Except Error (Handle ι)) (at_ : b.callers[i]? = some (.returned result))
  | waiting (slot : Nat) (at_ : b.callers[i]? = some (.holding slot))
      (unfilled : ∀ result, b.slots[slot]? ≠ some (.filled result))
      (taken : b.slots[slot]? ≠ some .empty)

/-- One step of a caller, and the load that it makes. `Fit` is what is true of the handles that are
made for the path. -/
inductive Turn (path : Path) (Fit : Handle ι → Prop) (b : Board ι) (i : Nat) :
    Option (Nat × Except Error ι) → Board ι → Prop
  | rest (rests : b.Rests i) : Turn path Fit b i none b
  | refuse (at_ : b.callers[i]? = some .arriving) {e : Error}
      (invalid : Cache.validateKey path = .error e) :
      Turn path Fit b i none (b.move i (.returned (.error e)))
  | hit (at_ : b.callers[i]? = some .arriving) {h : Handle ι} (found : b.live = some h) :
      Turn path Fit b i none (b.move i (.returned (.ok h)))
  | miss (at_ : b.callers[i]? = some .arriving) : Turn path Fit b i none (b.move i .missed)
  | join (at_ : b.callers[i]? = some .missed) {slot : Nat} (there : b.current = some slot) :
      Turn path Fit b i none (b.move i (.holding slot))
  | begin (at_ : b.callers[i]? = some .missed) (gone : b.current = none) :
      Turn path Fit b i none
        ({ b with slots := b.slots ++ [LoadSlot.empty], current := some b.slots.length }.move i
          (.holding b.slots.length))
  | take {slot : Nat} (at_ : b.callers[i]? = some (.holding slot))
      (free : b.slots[slot]? = some .empty) :
      Turn path Fit b i none ({ b with slots := b.slots.set slot .busy }.move i (.looking slot))
  | receive {slot : Nat} (at_ : b.callers[i]? = some (.holding slot))
      {result : Except Error (Handle ι)} (filled : b.slots[slot]? = some (.filled result)) :
      Turn path Fit b i none (b.move i (.leaving slot result))
  | find {slot : Nat} (at_ : b.callers[i]? = some (.looking slot)) {h : Handle ι}
      (found : b.live = some h) : Turn path Fit b i none (b.fill i slot (.ok h))
  | seek {slot : Nat} (at_ : b.callers[i]? = some (.looking slot)) (vacant : b.live = none) :
      Turn path Fit b i none (b.move i (.loading slot))
  | fail {slot : Nat} (at_ : b.callers[i]? = some (.loading slot)) (e : Error) :
      Turn path Fit b i (some (slot, .error e)) (b.fill i slot (.error e))
  | load {slot : Nat} (at_ : b.callers[i]? = some (.loading slot)) {h : Handle ι} (fit : Fit h) :
      Turn path Fit b i (some (slot, .ok h.index)) (b.move i (.accepting slot h))
  | accept {slot : Nat} {h : Handle ι} (at_ : b.callers[i]? = some (.accepting slot h)) :
      Turn path Fit b i none ({ b with live := some h }.fill i slot (.ok h))
  | leave {slot : Nat} {result : Except Error (Handle ι)}
      (at_ : b.callers[i]? = some (.leaving slot result)) :
      Turn path Fit b i none
        ({ b with current := b.current.filter (· ≠ slot) }.move i (.returned result))

theorem Turn.of_eq {path : Path} {Fit : Handle ι → Prop} {b b' b'' : Board ι} {i : Nat}
    {load : Option (Nat × Except Error ι)} (h : Turn path Fit b i load b') (heq : b'' = b') :
    Turn path Fit b i load b'' :=
  heq ▸ h

end Board

/-! ## What holds between the steps -/

namespace Board

/-- What a caller relies on where it stands. -/
def Stands (path : Path) (Fit : Handle ι → Prop) (b : Board ι)
    (loads : List (Nat × Except Error ι)) (seat : Option Nat) : Caller ι → Prop
  | .arriving | .missed => seat = none
  | .holding slot => seat = some slot ∧ slot < b.slots.length
  | .looking slot => seat = some slot ∧ b.slots[slot]? = some .busy
  | .loading slot => seat = some slot ∧ b.slots[slot]? = some .busy ∧ b.live = none
  | .accepting slot h =>
    seat = some slot ∧ b.slots[slot]? = some .busy ∧ b.live = none ∧ Fit h ∧
      (slot, .ok h.index) ∈ loads
  | .leaving slot result => seat = some slot ∧ b.slots[slot]? = some (.filled result)
  | .returned result => match seat with
    | some slot => b.slots[slot]? = some (.filled result)
    | none => (∃ h, result = .ok h ∧ b.live = some h) ∨
      ∃ e, result = .error e ∧ Cache.validateKey path = .error e

/-- The callers do not get in each other's way. -/
structure Orderly (path : Path) (Fit : Handle ι → Prop) (b : Board ι)
    (loads : List (Nat × Except Error ι)) (seat : Nat → Option Nat) : Prop where
  stands : ∀ (i : Nat) (c : Caller ι), b.callers[i]? = some c → b.Stands path Fit loads (seat i) c
  newest : ∀ slot, b.current = some slot → slot + 1 = b.slots.length
  /-- Only the slot in the table is not filled yet. -/
  settled : ∀ (slot : Nat) (state : LoadSlot ι), b.slots[slot]? = some state →
    (∃ result, state = .filled result) ∨ b.current = some slot
  /-- Somebody will take the slot out of the table. -/
  attended : ∀ slot, b.current = some slot →
    ∃ (i : Nat) (c : Caller ι), b.callers[i]? = some c ∧ c.slot? = some slot
  /-- Somebody is filling a busy slot. -/
  busy : ∀ slot : Nat, b.slots[slot]? = some LoadSlot.busy →
    ∃ (i : Nat) (c : Caller ι), b.callers[i]? = some c ∧ c.fills? = some slot
  alone : ∀ (i j : Nat) (c c' : Caller ι), b.callers[i]? = some c → b.callers[j]? = some c' →
    c.fills?.isSome = true → c'.fills?.isSome = true → i = j
  results : ∀ (slot : Nat) (result : Except Error (Handle ι)),
    b.slots[slot]? = some (LoadSlot.filled result) →
    (∃ h, result = .ok h ∧ b.live = some h) ∨ ∃ e, result = .error e ∧ (slot, .error e) ∈ loads
  failed : ∀ (slot : Nat) (e : Error), (slot, .error e) ∈ loads →
    b.slots[slot]? = some (LoadSlot.filled (.error e))
  loaded : ∀ (slot : Nat) (index : ι), (slot, .ok index) ∈ loads →
    (∃ (i : Nat) (c : Caller ι), b.callers[i]? = some c ∧
      ∃ h, c = .accepting slot h ∧ h.index = index) ∨
    ∃ h : Handle ι, b.slots[slot]? = some (LoadSlot.filled (.ok h)) ∧ h.index = index
  origin : ∀ h, b.live = some h → Fit h ∧ ∃ slot, (slot, .ok h.index) ∈ loads
  /-- Every load but the last has failed, and each was made for a later slot. -/
  inOrder : loads.Pairwise fun l l' => l.1 < l'.1 ∧ ∃ e, l.2 = .error e

section Orderly

variable {path : Path} {Fit : Handle ι → Prop} {b b' : Board ι}
  {loads loads' : List (Nat × Except Error ι)} {seat : Nat → Option Nat} {i : Nat}
  {c new : Caller ι}

theorem getElem?_set_callers (hat : b.callers[i]? = some c) (j : Nat) :
    (b.callers.set i new)[j]? = if j = i then some new else b.callers[j]? := by
  obtain ⟨hlt, -⟩ := List.getElem?_eq_some_iff.mp hat
  rw [List.getElem?_set]
  by_cases hj : i = j
  · rw [if_pos hj, if_pos hlt, if_pos hj.symm]
  · rw [if_neg hj, if_neg (Ne.symm hj)]

/-- What others rely on stays, if it is not about a slot that they fill. -/
structure Later (b b' : Board ι) (loads loads' : List (Nat × Except Error ι)) : Prop where
  slots : b.slots.length ≤ b'.slots.length
  filled : ∀ (slot : Nat) (result : Except Error (Handle ι)),
    b.slots[slot]? = some (LoadSlot.filled result) → b'.slots[slot]? = some (LoadSlot.filled result)
  live : ∀ h, b.live = some h → b'.live = some h
  loads : loads ⊆ loads'

theorem Stands.later {seat : Option Nat} (h : b.Stands path Fit loads seat c)
    (hlater : Later b b' loads loads')
    (hfills : ∀ slot, c.fills? = some slot → b'.slots[slot]? = b.slots[slot]? ∧ b'.live = b.live) :
    b'.Stands path Fit loads' seat c := by
  cases c with
  | arriving => exact h
  | missed => exact h
  | holding slot => exact ⟨h.1, Nat.lt_of_lt_of_le h.2 hlater.slots⟩
  | looking slot =>
    obtain ⟨hslot, -⟩ := hfills slot rfl
    exact ⟨h.1, hslot.trans h.2⟩
  | loading slot =>
    obtain ⟨hslot, hlive⟩ := hfills slot rfl
    exact ⟨h.1, hslot.trans h.2.1, hlive.trans h.2.2⟩
  | accepting slot handle =>
    obtain ⟨hslot, hlive⟩ := hfills slot rfl
    obtain ⟨hseat, hbusy, hvacant, hfit, hload⟩ := h
    exact ⟨hseat, hslot.trans hbusy, hlive.trans hvacant, hfit, hlater.loads hload⟩
  | leaving slot result => exact ⟨h.1, hlater.filled slot result h.2⟩
  | returned result =>
    cases seat with
    | some slot => exact hlater.filled slot result h
    | none => exact h.imp_left fun ⟨handle, hok, hlive⟩ => ⟨handle, hok, hlater.live handle hlive⟩

/-- The seat of the caller that has moved. -/
def reseat (seat : Nat → Option Nat) (i : Nat) (new : Caller ι) : Nat → Option Nat :=
  Function.update seat i (new.slot?.or (seat i))

theorem Orderly.stands_set (h : b.Orderly path Fit loads seat) (hat : b.callers[i]? = some c)
    (hcallers : b'.callers = b.callers.set i new) (hlater : Later b b' loads loads')
    (hothers : ∀ (j : Nat) (c : Caller ι) (slot : Nat), j ≠ i → b.callers[j]? = some c →
      c.fills? = some slot → b'.slots[slot]? = b.slots[slot]? ∧ b'.live = b.live)
    (hnew : b'.Stands path Fit loads' (new.slot?.or (seat i)) new) (j : Nat) (c' : Caller ι)
    (hj : b'.callers[j]? = some c') : b'.Stands path Fit loads' (reseat seat i new j) c' := by
  rw [hcallers, getElem?_set_callers hat] at hj
  by_cases hij : j = i
  · rw [if_pos hij] at hj
    cases hj
    rw [hij, reseat, Function.update_self]
    exact hnew
  · rw [if_neg hij] at hj
    rw [reseat, Function.update_of_ne hij]
    exact (h.stands j c' hj).later hlater fun slot => hothers j c' slot hij hj

theorem exists_set (hat : b.callers[i]? = some c) {P : Caller ι → Prop} (hP : P c → P new)
    (h : ∃ (j : Nat) (c' : Caller ι), b.callers[j]? = some c' ∧ P c') :
    ∃ (j : Nat) (c' : Caller ι), (b.callers.set i new)[j]? = some c' ∧ P c' := by
  obtain ⟨j, c', hj, hc'⟩ := h
  by_cases hij : j = i
  · rw [hij, hat] at hj
    cases hj
    exact ⟨i, new, by rw [getElem?_set_callers hat, if_pos rfl], hP hc'⟩
  · exact ⟨j, c', by rw [getElem?_set_callers hat, if_neg hij]; exact hj, hc'⟩

theorem Orderly.alone_set (h : b.Orderly path Fit loads seat) (hat : b.callers[i]? = some c)
    (hfills : new.fills?.isSome = true → c.fills?.isSome = true) (j j' : Nat) (d d' : Caller ι)
    (hj : (b.callers.set i new)[j]? = some d) (hj' : (b.callers.set i new)[j']? = some d')
    (hd : d.fills?.isSome = true) (hd' : d'.fills?.isSome = true) : j = j' := by
  rw [getElem?_set_callers hat] at hj hj'
  by_cases hij : j = i
  · rw [if_pos hij] at hj
    cases hj
    by_cases hij' : j' = i
    · rw [hij, hij']
    · rw [if_neg hij'] at hj'
      rw [hij]
      exact h.alone i j' c d' hat hj' (hfills hd) hd'
  · rw [if_neg hij] at hj
    by_cases hij' : j' = i
    · rw [if_pos hij'] at hj'
      cases hj'
      rw [hij']
      exact h.alone j i d c hj hat hd (hfills hd')
    · rw [if_neg hij'] at hj'
      exact h.alone j j' d d' hj hj' hd hd'

/-- Steps that change where the caller stands and nothing else. -/
theorem Orderly.quiet (h : b.Orderly path Fit loads seat) (hat : b.callers[i]? = some c)
    (hfills : new.fills? = c.fills?) (hslot : ∀ slot, c.slot? = some slot → new.slot? = some slot)
    (hother : ∀ slot handle, c ≠ .accepting slot handle)
    (hnew : b.Stands path Fit loads (new.slot?.or (seat i)) new) :
    (b.move i new).Orderly path Fit loads (reseat seat i new) where
  stands := h.stands_set hat rfl
    ⟨Nat.le_refl _, fun _ _ hr => hr, fun _ hl => hl, List.Subset.refl _⟩
    (fun _ _ _ _ _ _ => ⟨rfl, rfl⟩) hnew
  newest := h.newest
  settled := h.settled
  attended slot hcurrent := exists_set hat (hslot slot) (h.attended slot hcurrent)
  busy slot hbusy := exists_set hat (fun hc => hfills.trans hc) (h.busy slot hbusy)
  alone := h.alone_set hat fun hn => hfills ▸ hn
  results := h.results
  failed := h.failed
  loaded slot index hload := (h.loaded slot index hload).imp_left <|
    exists_set hat fun ⟨handle, hc, _⟩ => absurd hc (hother slot handle)
  origin := h.origin
  inOrder := h.inOrder

theorem Orderly.busy_of_fills (h : b.Orderly path Fit loads seat) (hat : b.callers[i]? = some c)
    {slot : Nat} (hfills : c.fills? = some slot) :
    b.slots[slot]? = some .busy ∧ seat i = some slot := by
  have hstands := h.stands i c hat
  cases c with
  | looking slot' =>
    cases hfills
    exact ⟨hstands.2, hstands.1⟩
  | loading slot' =>
    cases hfills
    exact ⟨hstands.2.1, hstands.1⟩
  | accepting slot' handle =>
    cases hfills
    exact ⟨hstands.2.1, hstands.1⟩
  | arriving | missed | holding _ | leaving _ _ | returned _ => cases hfills

theorem Orderly.current_of_unfilled (h : b.Orderly path Fit loads seat) {slot : Nat}
    {state : LoadSlot ι} (hslot : b.slots[slot]? = some state)
    (hunfilled : ∀ result, state ≠ .filled result) : b.current = some slot := by
  rcases h.settled slot state hslot with ⟨result, heq⟩ | hcurrent
  · exact absurd heq (hunfilled result)
  · exact hcurrent

/-- A caller makes a slot and takes it. -/
theorem Orderly.begin (h : b.Orderly path Fit loads seat) (hat : b.callers[i]? = some .missed)
    (hgone : b.current = none) :
    ({ b with slots := b.slots ++ [LoadSlot.empty], current := some b.slots.length }.move i
      (.holding b.slots.length)).Orderly path Fit loads
      (reseat seat i (.holding b.slots.length : Caller ι)) := by
  have hold : ∀ (slot : Nat) (state : LoadSlot ι), b.slots[slot]? = some state →
      (b.slots ++ [LoadSlot.empty])[slot]? = some state := by
    intro slot state hslot
    obtain ⟨hlt, -⟩ := List.getElem?_eq_some_iff.mp hslot
    rw [List.getElem?_append_left hlt]
    exact hslot
  have hnew : ∀ (slot : Nat) (state : LoadSlot ι), (b.slots ++ [LoadSlot.empty])[slot]? = some state →
      b.slots[slot]? = some state ∨ (slot = b.slots.length ∧ state = .empty) := by
    intro slot state hslot
    rw [List.getElem?_append] at hslot
    split at hslot
    · exact Or.inl hslot
    · next hge =>
      obtain ⟨hlt, heq⟩ := List.getElem?_eq_some_iff.mp hslot
      simp only [List.length_singleton] at hlt
      exact Or.inr ⟨by omega, by simpa using heq.symm⟩
  have hseat : seat i = none := h.stands i _ hat
  refine
    { stands := ?_, newest := ?_, settled := ?_, attended := ?_, busy := ?_, alone := ?_,
      results := ?_, failed := ?_, loaded := ?_, origin := h.origin, inOrder := h.inOrder }
  · refine h.stands_set hat rfl ⟨by simp [move], fun slot r => hold slot _, fun _ hl => hl,
      List.Subset.refl _⟩ ?_ ⟨rfl, by simp [move]⟩
    intro j d slot _ hj hd
    have hbusy := (h.busy_of_fills hj hd).1
    exact ⟨(hold slot _ hbusy).trans hbusy.symm, rfl⟩
  · intro slot hcurrent
    cases hcurrent
    simp [move]
  · intro slot state hslot
    rcases hnew slot state hslot with hslot | ⟨rfl, rfl⟩
    · rcases h.settled slot state hslot with hfilled | hcurrent
      · exact Or.inl hfilled
      · rw [hgone] at hcurrent
        cases hcurrent
    · exact Or.inr rfl
  · intro slot hcurrent
    cases hcurrent
    exact ⟨i, _, by rw [move, getElem?_set_callers hat, if_pos rfl], rfl⟩
  · intro slot hbusy
    rcases hnew slot _ hbusy with hbusy | ⟨_, hempty⟩
    · exact exists_set hat nofun (h.busy slot hbusy)
    · cases hempty
  · exact h.alone_set hat nofun
  · intro slot result hslot
    rcases hnew slot _ hslot with hslot | ⟨_, hempty⟩
    · exact h.results slot result hslot
    · cases hempty
  · exact fun slot e hload => hold slot _ (h.failed slot e hload)
  · intro slot index hload
    rcases h.loaded slot index hload with haccepting | ⟨handle, hslot, hindex⟩
    · exact Or.inl (exists_set hat nofun haccepting)
    · exact Or.inr ⟨handle, hold slot _ hslot, hindex⟩

/-- A caller is about to fill the slot that it took. -/
theorem Orderly.take (h : b.Orderly path Fit loads seat) {slot : Nat}
    (hat : b.callers[i]? = some (.holding slot)) (hfree : b.slots[slot]? = some .empty) :
    ({ b with slots := b.slots.set slot .busy }.move i (.looking slot)).Orderly path Fit loads
      (reseat seat i (.looking slot : Caller ι)) := by
  have hcurrent := h.current_of_unfilled hfree nofun
  obtain ⟨hlt, -⟩ := List.getElem?_eq_some_iff.mp hfree
  have hother : ∀ (k : Nat) (state : LoadSlot ι), b.slots[k]? = some state → state ≠ .empty →
      k ≠ slot ∧ (b.slots.set slot .busy)[k]? = some state := by
    intro k state hk hstate
    have hne : k ≠ slot := by
      rintro rfl
      rw [hfree] at hk
      exact hstate (Option.some.inj hk).symm
    exact ⟨hne, by rw [List.getElem?_set_ne hne.symm]; exact hk⟩
  -- Nobody fills a slot: a busy slot would be the one in the table, which is empty.
  have hnobody : ∀ (j : Nat) (d : Caller ι), b.callers[j]? = some d → d.fills? = none := by
    intro j d hj
    cases hd : d.fills? with
    | none => rfl
    | some k =>
      have hbusy := (h.busy_of_fills hj hd).1
      have hk := h.current_of_unfilled hbusy nofun
      rw [hcurrent] at hk
      cases hk
      rw [hfree] at hbusy
      cases hbusy
  refine
    { stands := ?_, newest := ?_, settled := ?_, attended := ?_, busy := ?_, alone := ?_,
      results := ?_, failed := ?_, loaded := ?_, origin := h.origin, inOrder := h.inOrder }
  · refine h.stands_set hat rfl ⟨by simp [move], fun k r hk => (hother k _ hk nofun).2,
      fun _ hl => hl, List.Subset.refl _⟩ ?_ ⟨rfl, by simp [move, hlt]⟩
    intro j d k _ hj hd
    rw [hnobody j d hj] at hd
    cases hd
  · intro k hk
    rw [move, List.length_set]
    exact h.newest k hk
  · intro k state hk
    by_cases hne : k = slot
    · exact Or.inr (hne ▸ hcurrent)
    · rw [move, List.getElem?_set_ne (Ne.symm hne)] at hk
      exact h.settled k state hk
  · exact fun k hk => exists_set hat (fun hc => hc) (h.attended k hk)
  · intro k hk
    by_cases hne : k = slot
    · exact ⟨i, _, by rw [move, getElem?_set_callers hat, if_pos rfl], by rw [hne]; rfl⟩
    · rw [move, List.getElem?_set_ne (Ne.symm hne)] at hk
      exact exists_set hat nofun (h.busy k hk)
  · intro j j' d d' hj hj' hd hd'
    have honly : ∀ (j : Nat) (d : Caller ι),
        (b.callers.set i (.looking slot))[j]? = some d → d.fills?.isSome = true → j = i := by
      intro j d hj hd
      rw [getElem?_set_callers hat] at hj
      by_cases hij : j = i
      · exact hij
      · rw [if_neg hij] at hj
        rw [hnobody j d hj] at hd
        cases hd
    rw [honly j d hj hd, honly j' d' hj' hd']
  · intro k result hk
    by_cases hne : k = slot
    · rw [hne, move, List.getElem?_set_self hlt] at hk
      cases hk
    · rw [move, List.getElem?_set_ne (Ne.symm hne)] at hk
      exact h.results k result hk
  · exact fun k e hload => (hother k _ (h.failed k e hload) nofun).2
  · intro k index hload
    rcases h.loaded k index hload with haccepting | ⟨handle, hk, hindex⟩
    · exact Or.inl (exists_set hat nofun haccepting)
    · exact Or.inr ⟨handle, (hother k _ hk nofun).2, hindex⟩

/-- A caller fills its slot, perhaps after a load that failed. -/
theorem Orderly.fill (h : b.Orderly path Fit loads seat) {slot : Nat}
    {result : Except Error (Handle ι)} {live : Option (Handle ι)}
    (hat : b.callers[i]? = some c) (hfills : c.fills? = some slot)
    (hlive : ∀ handle, b.live = some handle → live = some handle)
    (hloads : loads' = loads ∨ ∃ e, result = .error e ∧ loads' = loads ++ [(slot, .error e)])
    (hresult : (∃ handle, result = .ok handle ∧ live = some handle) ∨
      ∃ e, result = .error e ∧ (slot, .error e) ∈ loads')
    (hloaded : ∀ index, (slot, .ok index) ∈ loads →
      ∃ handle, result = .ok handle ∧ handle.index = index)
    (horigin : ∀ handle, live = some handle →
      Fit handle ∧ ∃ k, (k, .ok handle.index) ∈ loads')
    (hinOrder : loads'.Pairwise fun l l' => l.1 < l'.1 ∧ ∃ e, l.2 = .error e) :
    ({ b with live := live }.fill i slot result).Orderly path Fit loads'
      (reseat seat i (.leaving slot result)) := by
  obtain ⟨hbusy, hseat⟩ := h.busy_of_fills hat hfills
  obtain ⟨hlt, -⟩ := List.getElem?_eq_some_iff.mp hbusy
  have hself : (b.slots.set slot (.filled result))[slot]? = some (.filled result) :=
    List.getElem?_set_self hlt
  have hother : ∀ (k : Nat) (state : LoadSlot ι), b.slots[k]? = some state → state ≠ .busy →
      k ≠ slot ∧ (b.slots.set slot (.filled result))[k]? = some state := by
    intro k state hk hstate
    have hne : k ≠ slot := by
      rintro rfl
      rw [hbusy] at hk
      exact hstate (Option.some.inj hk).symm
    exact ⟨hne, by rw [List.getElem?_set_ne hne.symm]; exact hk⟩
  have hgrow : loads ⊆ loads' := by
    rcases hloads with rfl | ⟨e, -, rfl⟩
    · exact List.Subset.refl _
    · exact List.subset_append_left _ _
  refine
    { stands := ?_, newest := ?_, settled := ?_, attended := ?_, busy := ?_, alone := ?_,
      results := ?_, failed := ?_, loaded := ?_, origin := horigin, inOrder := hinOrder }
  · refine h.stands_set hat rfl ⟨by simp [Board.fill, move],
      fun k r hk => (hother k _ hk nofun).2, hlive, hgrow⟩ ?_ ⟨rfl, hself⟩
    intro j d k hji hj hd
    exact absurd (h.alone j i d c hj hat (by rw [hd]; rfl) (by rw [hfills]; rfl)) hji
  · intro k hk
    rw [Board.fill, move, List.length_set]
    exact h.newest k hk
  · intro k state hk
    by_cases hne : k = slot
    · rw [hne, Board.fill, move, hself] at hk
      cases hk
      exact Or.inl ⟨result, rfl⟩
    · rw [Board.fill, move, List.getElem?_set_ne (Ne.symm hne)] at hk
      exact h.settled k state hk
  · intro k hk
    refine exists_set hat (fun hc => ?_) (h.attended k hk)
    rwa [Caller.slot?_of_fills? hfills] at hc
  · intro k hk
    by_cases hne : k = slot
    · rw [hne, Board.fill, move, hself] at hk
      cases hk
    · rw [Board.fill, move, List.getElem?_set_ne (Ne.symm hne)] at hk
      refine exists_set hat (fun hc => ?_) (h.busy k hk)
      rw [hfills] at hc
      exact absurd (Option.some.inj hc).symm hne
  · exact h.alone_set hat nofun
  · intro k r hk
    by_cases hne : k = slot
    · rw [hne, Board.fill, move, hself] at hk
      cases hk
      rw [hne]
      exact hresult
    · rw [Board.fill, move, List.getElem?_set_ne (Ne.symm hne)] at hk
      rcases h.results k r hk with ⟨handle, hok, hl⟩ | ⟨e, herror, hload⟩
      · exact Or.inl ⟨handle, hok, hlive handle hl⟩
      · exact Or.inr ⟨e, herror, hgrow hload⟩
  · intro k e hload
    rcases hloads with rfl | ⟨e', hresult', rfl⟩
    · exact (hother k _ (h.failed k e hload) nofun).2
    · rcases List.mem_append.mp hload with hload | hload
      · exact (hother k _ (h.failed k e hload) nofun).2
      · cases List.mem_singleton.mp hload
        rw [← hresult']
        exact hself
  · intro k index hload
    have hload : (k, .ok index) ∈ loads := by
      rcases hloads with rfl | ⟨e', -, rfl⟩
      · exact hload
      · rcases List.mem_append.mp hload with hload | hload
        · exact hload
        · cases List.mem_singleton.mp hload
    by_cases hne : k = slot
    · subst hne
      obtain ⟨handle, rfl, hindex⟩ := hloaded index hload
      exact Or.inr ⟨handle, hself, hindex⟩
    · rcases h.loaded k index hload with haccepting | ⟨handle, hk, hindex⟩
      · refine Or.inl (exists_set hat ?_ haccepting)
        rintro ⟨handle, rfl, -⟩
        exact absurd (Option.some.inj hfills) hne
      · exact Or.inr ⟨handle, (hother k _ hk nofun).2, hindex⟩

/-- No load has succeeded before one that is made now. -/
theorem Orderly.before_load (h : b.Orderly path Fit loads seat) {slot : Nat}
    (hat : b.callers[i]? = some (.loading slot)) :
    ∀ l ∈ loads, l.1 < slot ∧ ∃ e, l.2 = .error e := by
  obtain ⟨-, hbusy, hvacant⟩ := h.stands i _ hat
  have hnewest := h.newest slot (h.current_of_unfilled hbusy nofun)
  rintro ⟨k, result⟩ hload
  cases result with
  | error e =>
    have hfailed := h.failed k e hload
    obtain ⟨hlt, -⟩ := List.getElem?_eq_some_iff.mp hfailed
    have hne : k ≠ slot := by
      rintro rfl
      rw [hbusy] at hfailed
      cases hfailed
    exact ⟨by omega, e, rfl⟩
  | ok index =>
    exfalso
    rcases h.loaded k index hload with ⟨j, d, hj, handle, rfl, -⟩ | ⟨handle, hk, -⟩
    · obtain rfl := h.alone i j _ _ hat hj rfl rfl
      rw [hat] at hj
      cases hj
    · rcases h.results k _ hk with ⟨handle', -, hlive⟩ | ⟨e, herror, -⟩
      · rw [hvacant] at hlive
        cases hlive
      · cases herror

theorem Orderly.inOrder_concat (h : b.Orderly path Fit loads seat) {slot : Nat}
    (hat : b.callers[i]? = some (.loading slot)) (result : Except Error ι) :
    (loads ++ [(slot, result)]).Pairwise fun l l' => l.1 < l'.1 ∧ ∃ e, l.2 = .error e := by
  rw [List.pairwise_append]
  refine ⟨h.inOrder, List.pairwise_singleton _ _, ?_⟩
  intro l hl l' hl'
  rw [List.mem_singleton.mp hl']
  exact h.before_load hat l hl

/-- A load succeeds. -/
theorem Orderly.load (h : b.Orderly path Fit loads seat) {slot : Nat} {handle : Handle ι}
    (hat : b.callers[i]? = some (.loading slot)) (hfit : Fit handle) :
    (b.move i (.accepting slot handle)).Orderly path Fit (loads ++ [(slot, .ok handle.index)])
      (reseat seat i (.accepting slot handle)) := by
  obtain ⟨hseat, hbusy, hvacant⟩ := h.stands i _ hat
  have hgrow : loads ⊆ loads ++ [(slot, .ok handle.index)] := List.subset_append_left _ _
  refine
    { stands := ?_, newest := h.newest, settled := h.settled, attended := ?_, busy := ?_,
      alone := h.alone_set hat fun _ => rfl, results := ?_, failed := ?_, loaded := ?_,
      origin := ?_, inOrder := h.inOrder_concat hat _ }
  · refine h.stands_set hat rfl ⟨Nat.le_refl _, fun _ _ hr => hr, fun _ hl => hl, hgrow⟩
      (fun _ _ _ _ _ _ => ⟨rfl, rfl⟩) ⟨rfl, hbusy, hvacant, hfit, ?_⟩
    exact List.mem_append_right _ (List.mem_singleton_self _)
  · exact fun k hk => exists_set hat (fun hc => hc) (h.attended k hk)
  · exact fun k hk => exists_set hat (fun hc => hc) (h.busy k hk)
  · exact fun k result hk => (h.results k result hk).imp_right
      fun ⟨e, herror, hload⟩ => ⟨e, herror, hgrow hload⟩
  · intro k e hload
    rcases List.mem_append.mp hload with hload | hload
    · exact h.failed k e hload
    · cases List.mem_singleton.mp hload
  · intro k index hload
    rcases List.mem_append.mp hload with hload | hload
    · exact (h.loaded k index hload).imp_left (exists_set hat nofun)
    · cases List.mem_singleton.mp hload
      exact Or.inl ⟨i, _, by rw [move, getElem?_set_callers hat, if_pos rfl], handle, rfl, rfl⟩
  · intro handle' hlive
    obtain ⟨hfit', k, hload⟩ := h.origin handle' hlive
    exact ⟨hfit', k, hgrow hload⟩

/-- A caller takes its slot out of the table, if it is there. -/
theorem Orderly.leave (h : b.Orderly path Fit loads seat) {slot : Nat}
    {result : Except Error (Handle ι)} (hat : b.callers[i]? = some (.leaving slot result)) :
    ({ b with current := b.current.filter (· ≠ slot) }.move i (.returned result)).Orderly path Fit
      loads (reseat seat i (.returned result)) := by
  obtain ⟨hseat, hfilled⟩ := h.stands i _ hat
  have hcurrent : ∀ k, b.current.filter (· ≠ slot) = some k ↔ b.current = some k ∧ k ≠ slot := by
    intro k
    rw [Option.filter_eq_some_iff]
    simp
  refine
    { stands := ?_, newest := ?_, settled := ?_, attended := ?_, busy := ?_,
      alone := h.alone_set hat nofun, results := h.results, failed := h.failed, loaded := ?_,
      origin := h.origin, inOrder := h.inOrder }
  · refine h.stands_set hat rfl ⟨Nat.le_refl _, fun _ _ hr => hr, fun _ hl => hl,
      List.Subset.refl _⟩ (fun _ _ _ _ _ _ => ⟨rfl, rfl⟩) ?_
    simp only [Caller.slot?, Option.none_or, hseat]
    exact hfilled
  · exact fun k hk => h.newest k ((hcurrent k).mp hk).1
  · intro k state hk
    rcases h.settled k state hk with hstate | hk'
    · exact Or.inl hstate
    · by_cases hne : k = slot
      · rw [hne] at hk
        exact Or.inl ⟨result, Option.some.inj (hk.symm.trans hfilled)⟩
      · exact Or.inr ((hcurrent k).mpr ⟨hk', hne⟩)
  · intro k hk
    obtain ⟨hk, hne⟩ := (hcurrent k).mp hk
    refine exists_set hat (fun hc => ?_) (h.attended k hk)
    exact absurd (Option.some.inj hc).symm hne
  · exact fun k hk => exists_set hat nofun (h.busy k hk)
  · exact fun k index hload => (h.loaded k index hload).imp_left (exists_set hat nofun)

theorem Orderly.seat_self (h : b.Orderly path Fit loads seat) (i : Nat) :
    (b.callers[i]?.bind Caller.slot?).or (seat i) = seat i := by
  cases hat : b.callers[i]? with
  | none => rfl
  | some c =>
    have hstands := h.stands i c hat
    cases c with
    | arriving | missed | returned _ => rfl
    | holding _ | looking _ | loading _ | accepting _ _ | leaving _ _ => exact hstands.1.symm

/-- While a caller fills a slot without a handle, no load for the slot has succeeded. -/
theorem Orderly.not_loaded (h : b.Orderly path Fit loads seat) (hat : b.callers[i]? = some c)
    {slot : Nat} (hfills : c.fills? = some slot) {index : ι} (hload : (slot, .ok index) ∈ loads) :
    ∃ handle, c = .accepting slot handle ∧ handle.index = index := by
  rcases h.loaded slot index hload with ⟨j, d, hj, handle, rfl, hindex⟩ | ⟨handle, hk, -⟩
  · obtain rfl := h.alone i j _ _ hat hj (by rw [hfills]; rfl) rfl
    rw [hat] at hj
    exact ⟨handle, Option.some.inj hj, hindex⟩
  · rw [(h.busy_of_fills hat hfills).1] at hk
    cases hk

theorem Orderly.last_of_ok (h : b.Orderly path Fit loads seat)
    {before after : List (Nat × Except Error ι)} {slot : Nat} {index : ι}
    (hloads : loads = before ++ (slot, .ok index) :: after) :
    after = [] ∧ ∀ l ∈ before, l.1 < slot ∧ ∃ e, l.2 = .error e := by
  have hinOrder := h.inOrder
  rw [hloads, List.pairwise_append, List.pairwise_cons] at hinOrder
  obtain ⟨-, ⟨hafter, -⟩, hbefore⟩ := hinOrder
  refine ⟨?_, fun l hl => hbefore l hl _ List.mem_cons_self⟩
  rw [List.eq_nil_iff_forall_not_mem]
  intro l hl
  obtain ⟨-, e, hcon⟩ := hafter l hl
  cases hcon

/-- A slot that is later than one with a success is filled with the handle, if it is filled. -/
theorem Orderly.result_of_ok (h : b.Orderly path Fit loads seat) {slot : Nat} {index : ι}
    (hload : (slot, .ok index) ∈ loads) :
    ∃ handle, Fit handle ∧ handle.index = index ∧
      (b.live = none ∨ b.live = some handle) ∧
      ∀ (slot' : Nat) (result : Except Error (Handle ι)), slot ≤ slot' →
        b.slots[slot']? = some (.filled result) → result = .ok handle := by
  obtain ⟨before, after, hsplit⟩ := List.append_of_mem hload
  obtain ⟨rfl, hbefore⟩ := h.last_of_ok hsplit
  rcases h.loaded slot index hload with ⟨i, c, hat, handle, rfl, hindex⟩ | ⟨handle, hslot, hindex⟩
  · obtain ⟨-, hbusy, hvacant, hfit, -⟩ := h.stands i _ hat
    refine ⟨handle, hfit, hindex, Or.inl hvacant, fun slot' result hle hfilled => ?_⟩
    have hnewest := h.newest slot (h.current_of_unfilled hbusy nofun)
    obtain ⟨hlt, -⟩ := List.getElem?_eq_some_iff.mp hfilled
    obtain rfl : slot' = slot := by omega
    rw [hbusy] at hfilled
    cases hfilled
  · obtain ⟨handle', hok, hlive⟩ | ⟨e, herror, -⟩ := h.results slot _ hslot
    · cases hok
      refine ⟨handle, (h.origin handle hlive).1, hindex, Or.inr hlive, ?_⟩
      intro slot' result hle hfilled
      obtain ⟨handle', rfl, hlive'⟩ | ⟨e, rfl, hfailed⟩ := h.results slot' _ hfilled
      · rw [hlive] at hlive'
        rw [Option.some.inj hlive']
      · rw [hsplit] at hfailed
        rcases List.mem_append.mp hfailed with hfailed | hfailed
        · exact absurd (hbefore _ hfailed).1 (Nat.not_lt.mpr hle)
        · cases List.mem_singleton.mp hfailed
    · cases herror

/-- What one step preserves. -/
theorem Orderly.turn (h : b.Orderly path Fit loads seat) {load : Option (Nat × Except Error ι)}
    (hturn : b.Turn path Fit i load b') :
    b'.Orderly path Fit (loads ++ load.toList)
      (Function.update seat i ((b'.callers[i]?.bind Caller.slot?).or (seat i))) := by
  have hseat : ∀ {c new : Caller ι}, b.callers[i]? = some c →
      Function.update seat i (((b.callers.set i new)[i]?.bind Caller.slot?).or (seat i))
        = reseat seat i new := by
    intro c new hat
    rw [getElem?_set_callers hat, if_pos rfl]
    rfl
  cases hturn with
  | rest _ =>
    rw [h.seat_self, Function.update_eq_self, Option.toList_none, List.append_nil]
    exact h
  | refuse hat hinvalid =>
    have hnone : seat i = none := h.stands i _ hat
    simp only [move, hseat hat, Option.toList_none, List.append_nil]
    refine h.quiet hat rfl nofun nofun ?_
    simp only [Caller.slot?, Option.none_or, hnone]
    exact Or.inr ⟨_, rfl, hinvalid⟩
  | hit hat hfound =>
    have hnone : seat i = none := h.stands i _ hat
    simp only [move, hseat hat, Option.toList_none, List.append_nil]
    refine h.quiet hat rfl nofun nofun ?_
    simp only [Caller.slot?, Option.none_or, hnone]
    exact Or.inl ⟨_, rfl, hfound⟩
  | miss hat =>
    have hnone : seat i = none := h.stands i _ hat
    simp only [move, hseat hat, Option.toList_none, List.append_nil]
    exact h.quiet hat rfl nofun nofun hnone
  | join hat hthere =>
    simp only [move, hseat hat, Option.toList_none, List.append_nil]
    exact h.quiet hat rfl nofun nofun ⟨rfl, Nat.lt_of_succ_le (h.newest _ hthere).le⟩
  | begin hat hgone =>
    simp only [move, hseat hat, Option.toList_none, List.append_nil]
    exact h.begin hat hgone
  | take hat hfree =>
    simp only [move, hseat hat, Option.toList_none, List.append_nil]
    exact h.take hat hfree
  | receive hat hfilled =>
    simp only [move, hseat hat, Option.toList_none, List.append_nil]
    exact h.quiet hat rfl (fun _ hc => hc) nofun ⟨rfl, hfilled⟩
  | find hat hfound =>
    simp only [Board.fill, move, hseat hat, Option.toList_none, List.append_nil]
    refine h.fill hat rfl (fun _ hl => hl) (Or.inl rfl) (Or.inl ⟨_, rfl, hfound⟩) ?_ h.origin
      h.inOrder
    intro index hload
    obtain ⟨handle, hcon, -⟩ := h.not_loaded hat rfl hload
    cases hcon
  | seek hat hvacant =>
    obtain ⟨hslot, hbusy⟩ := h.stands i _ hat
    simp only [move, hseat hat, Option.toList_none, List.append_nil]
    exact h.quiet hat rfl (fun _ hc => hc) nofun ⟨rfl, hbusy, hvacant⟩
  | fail hat e =>
    simp only [Board.fill, move, hseat hat, Option.toList_some]
    refine h.fill hat rfl (fun _ hl => hl) (Or.inr ⟨e, rfl, rfl⟩)
      (Or.inr ⟨e, rfl, List.mem_append_right _ (List.mem_singleton_self _)⟩) ?_ ?_
      (h.inOrder_concat hat _)
    · intro index hload
      obtain ⟨handle, hcon, -⟩ := h.not_loaded hat rfl hload
      cases hcon
    · intro handle hlive
      obtain ⟨hfit, k, hload⟩ := h.origin handle hlive
      exact ⟨hfit, k, List.mem_append_left _ hload⟩
  | load hat hfit =>
    simp only [move, hseat hat, Option.toList_some]
    exact h.load hat hfit
  | accept hat =>
    obtain ⟨hslot, hbusy, hvacant, hfit, hload⟩ := h.stands i _ hat
    simp only [Board.fill, move, hseat hat, Option.toList_none, List.append_nil]
    refine h.fill hat rfl ?_ (Or.inl rfl) (Or.inl ⟨_, rfl, rfl⟩) ?_ ?_ h.inOrder
    · intro handle hlive
      rw [hvacant] at hlive
      cases hlive
    · intro index hload'
      obtain ⟨handle, hcon, hindex⟩ := h.not_loaded hat rfl hload'
      cases hcon
      exact ⟨_, rfl, hindex⟩
    · intro handle hlive
      cases hlive
      exact ⟨hfit, _, hload⟩
  | leave hat =>
    simp only [move, hseat hat, Option.toList_none, List.append_nil]
    exact h.leave hat

end Orderly

/-! ## Every turn uses up a step -/

/-- The steps that all callers together have before them. -/
def remaining (b : Board ι) : Nat := (b.callers.map Caller.remaining).sum

theorem sum_remaining_set_lt {callers : List (Caller ι)} {i : Nat} {c new : Caller ι}
    (hat : callers[i]? = some c) (hlt : new.remaining < c.remaining) :
    ((callers.set i new).map Caller.remaining).sum < (callers.map Caller.remaining).sum := by
  induction callers generalizing i with
  | nil => cases hat
  | cons d rest ih =>
    cases i with
    | zero =>
      cases hat
      simp only [List.set_cons_zero, List.map_cons, List.sum_cons]
      omega
    | succ i =>
      have hrest := ih (i := i) hat
      simp only [List.set_cons_succ, List.map_cons, List.sum_cons]
      omega

variable {path : Path} {Fit : Handle ι → Prop} {b b' : Board ι}
  {loads : List (Nat × Except Error ι)} {seat : Nat → Option Nat} {i : Nat}

/-- A caller that does not rest comes nearer to its end. -/
theorem Turn.rests_or_lt {load : Option (Nat × Except Error ι)}
    (h : b.Turn path Fit i load b') : (b' = b ∧ b.Rests i) ∨ b'.remaining < b.remaining := by
  cases h with
  | rest hrests => exact Or.inl ⟨rfl, hrests⟩
  | refuse hat _ | hit hat _ | miss hat | join hat _ | begin hat _ | take hat _ | receive hat _
  | find hat _ | seek hat _ | fail hat _ | load hat _ | accept hat | leave hat =>
    exact Or.inr (sum_remaining_set_lt hat (by simp [Caller.remaining]))

theorem Turn.length_callers {load : Option (Nat × Except Error ι)}
    (h : b.Turn path Fit i load b') : b'.callers.length = b.callers.length := by
  cases h with
  | rest _ => rfl
  | refuse _ _ | hit _ _ | miss _ | join _ _ | begin _ _ | take _ _ | receive _ _ | find _ _
  | seek _ _ | fail _ _ | load _ _ | accept _ | leave _ => exact List.length_set

theorem remaining_eq_zero_iff :
    b.remaining = 0 ↔ ∀ (i : Nat) (c : Caller ι), b.callers[i]? = some c → ∃ r, c = .returned r := by
  rw [remaining, List.sum_eq_zero_iff_forall_eq_nat]
  constructor
  · intro hzero i c hat
    have hc := hzero c.remaining (List.mem_map_of_mem (List.mem_of_getElem? hat))
    cases c with
    | returned r => exact ⟨r, rfl⟩
    | arriving | missed | holding _ | looking _ | loading _ | accepting _ _ | leaving _ _ =>
      cases hc
  · intro hdone m hm
    obtain ⟨c, hc, rfl⟩ := List.mem_map.mp hm
    obtain ⟨i, hat⟩ := List.mem_iff_getElem?.mp hc
    obtain ⟨r, rfl⟩ := hdone i c hat
    rfl

/-- Whoever is to take the slot out of the table has not returned. -/
theorem Orderly.current_eq_none (h : b.Orderly path Fit loads seat) (hdone : b.remaining = 0) :
    b.current = none := by
  cases hcurrent : b.current with
  | none => rfl
  | some slot =>
    obtain ⟨i, c, hat, hslot⟩ := h.attended slot hcurrent
    obtain ⟨result, rfl⟩ := remaining_eq_zero_iff.mp hdone i c hat
    cases hslot

/-- Not all callers wait for each other: a slot for which somebody waits is being filled. -/
theorem Orderly.remaining_of_rests (h : b.Orderly path Fit loads seat)
    (hrests : ∀ i < b.callers.length, b.Rests i) : b.remaining = 0 := by
  rw [remaining_eq_zero_iff]
  intro i c hat
  have hresting : ∀ (j : Nat) (d : Caller ι), b.callers[j]? = some d → b.Rests j := by
    intro j d hj
    exact hrests j (List.getElem?_eq_some_iff.mp hj).1
  cases hresting i c hat with
  | absent hnone =>
    rw [hat] at hnone
    cases hnone
  | done r hdone =>
    rw [hat] at hdone
    exact ⟨r, Option.some.inj hdone⟩
  | waiting slot hwaiting hunfilled htaken =>
    obtain ⟨-, hlt⟩ := h.stands i _ hwaiting
    have hslot : b.slots[slot]? = some b.slots[slot] := List.getElem?_eq_getElem hlt
    have hbusy : b.slots[slot]? = some .busy := by
      cases hstate : b.slots[slot] with
      | empty => exact absurd (hstate ▸ hslot) htaken
      | busy => exact hstate ▸ hslot
      | filled r => exact absurd (hstate ▸ hslot) (hunfilled r)
    obtain ⟨j, d, hj, hd⟩ := h.busy slot hbusy
    cases hresting j d hj with
    | absent hnone =>
      rw [hj] at hnone
      cases hnone
    | done r hdone =>
      rw [hj] at hdone
      cases hdone
      cases hd
    | waiting slot' hwaiting' _ _ =>
      rw [hj] at hwaiting'
      cases hwaiting'
      cases hd

end Board

end Sidecar
