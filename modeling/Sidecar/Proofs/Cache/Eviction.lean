import Mathlib.Data.List.MinMax
import Sidecar.Proofs.Cache.Accounts

/-!
# Who leaves for a new handle

A handle that is let in may drive out others, and these are the ones that nobody has asked for the
longest. Recency is a matter of the run: `Service.accesses` notes every `get` and `put` that was
answered with a handle, and the number of the last note about a path tells how recently its entry was
used (`Service.lastNumber`). Nothing else is an access.

The cache keeps no such numbers. It keeps its entries in a list, and in every run the numbers rise
along that list (`Service.Ranked`): an action takes entries out of the list, and moves or adds at
most one, which it puts at the end, and this one is the path that was just noted.

So the first entries of the list are the right ones, and `Cache.victims` are as few of them as will do
(`Cache.victims_shortest`). A cache that keeps a table of entries in no order at all, each with its
number, and looks for the least number as long as the table is too heavy, comes to the same entries in
the same order (`Cache.evict_eq_victims`), and to an end.

That cache counts its weight in 64 bits. It comes to the same entries as long as the sizes of the
table sum to no more than that; past it the table seems light, and nobody leaves
(`Service.admission_past_64_bits`).
-/

set_option autoImplicit false

namespace Sidecar

variable {σ ι : Type}

namespace Cache

variable {es table : List (Entry ι)} {budget extra : Nat}

/-! ## As few as will do -/

theorem fits_of_spared (es : List (Entry ι)) (h : extra ≤ budget) :
    total (spared budget (total es + extra) es) + extra ≤ budget := by
  have hparts := congrArg total (victims_append_spared budget (total es + extra) es)
  have hgone := le_of_victims es h
  rw [total_append] at hparts
  omega

/-- Whoever takes entries off the front of the list until the rest fits takes all the victims. -/
theorem victims_shortest {fewer more : List (Entry ι)} (hparts : es = fewer ++ more)
    (hfits : total more + extra ≤ budget) : victims budget (total es + extra) es <+: fewer := by
  induction es generalizing fewer with
  | nil => exact List.nil_prefix
  | cons e rest ih =>
    rw [victims]
    split
    · exact List.nil_prefix
    · next hheavy =>
      rcases fewer with _ | ⟨first, fewer⟩
      · rw [List.nil_append] at hparts
        rw [hparts] at hheavy
        exact absurd hfits hheavy
      · obtain ⟨rfl, hrest⟩ := List.cons.inj hparts
        have hweight : total (e :: rest) + extra - e.handle.size = total rest + extra := by
          rw [total_cons]
          omega
        rw [hweight]
        exact (List.prefix_cons_inj e).mpr (ih hrest)

/-! ## A table without an order -/

/-- The weight of a table as it is counted in 64 bits. In a cache a counter has it that is moved with
every entry (`counted_insert`, `Sound.counted_expel`). -/
def counted : List (Entry ι) → UInt64
  | [] => 0
  | e :: table => counted table + UInt64.ofNat e.handle.size

theorem counted_eq (table : List (Entry ι)) : counted table = UInt64.ofNat (total table) := by
  induction table with
  | nil => rfl
  | cons e table ih => rw [counted, ih, total_cons, Nat.add_comm, UInt64.ofNat_add]

/-- An entry that comes in has its size added to the counter, which may run over. -/
theorem counted_insert (c : Cache ι) (now : Nat) (h : Handle ι) :
    counted (c.insert now h).entries = counted c.entries + UInt64.ofNat h.size := by
  rw [counted_eq, counted_eq, insert, total_append, total_cons, total_nil, Nat.add_zero,
    UInt64.ofNat_add]

/-- An entry that leaves has its size taken off the counter, whether it has run over or not. -/
theorem Sound.counted_expel {c : Cache ι} (hc : c.Sound) (reason : RemovalReason) {e : Entry ι}
    (he : e ∈ c.entries) :
    counted (c.expel reason e).entries = counted c.entries - UInt64.ofNat e.handle.size := by
  rw [counted_eq, counted_eq, ← (hc.expel reason he).weight, expel_weight,
    UInt64.ofNat_sub (hc.size_le he), hc.weight]

/-- The entries that leave a table of some weight. As long as the weight is more than the budget the
entry with the least stamp leaves, of those of other paths, and its size is taken off the weight. -/
def evict (stamp : Entry ι → Nat) (path : Path) (budget : Nat) (weight : UInt64)
    (table : List (Entry ι)) : List (Entry ι) :=
  if weight.toNat ≤ budget then []
  else match _ : (besides path table).argmin stamp with
    | none => []
    | some e =>
      e :: evict stamp path budget (weight - UInt64.ofNat e.handle.size)
        (besides e.handle.path table)
termination_by table.length
decreasing_by
  -- The entry that leaves was in the table.
  have hleast : (besides path table).argmin stamp = some e := ‹_›
  have he := (mem_besides.mp (List.argmin_mem hleast)).1
  exact List.length_filter_lt_length_iff_exists.mpr ⟨e, he, by simp⟩

section Table

variable {stamp : Entry ι → Nat} {path : Path} {e new : Entry ι} {weight : UInt64}

theorem total_perm {es es' : List (Entry ι)} (h : es.Perm es') : total es = total es' :=
  (h.map fun e : Entry ι => e.handle.size).sum_eq

theorem toNat_counted (h : total table < UInt64.size) : (counted table).toNat = total table := by
  rw [counted_eq]
  exact UInt64.toNat_ofNat_of_lt' h

/-- A size that the weight contains can be taken off. -/
theorem toNat_sub_size (h : e.handle.size ≤ weight.toNat) :
    (weight - UInt64.ofNat e.handle.size).toNat = weight.toNat - e.handle.size := by
  have hsize : (UInt64.ofNat e.handle.size).toNat = e.handle.size :=
    UInt64.toNat_ofNat_of_lt' (h.trans_lt weight.toNat_lt_size)
  have hle : UInt64.ofNat e.handle.size ≤ weight := by rwa [UInt64.le_iff_toNat_le, hsize]
  rw [UInt64.toNat_sub_of_le _ _ hle, hsize]

theorem evict_of_none (h : (besides path table).argmin stamp = none) :
    evict stamp path budget weight table = [] := by
  rw [evict]
  split
  · rfl
  · split
    · rfl
    · next hleast =>
      rw [h] at hleast
      cases hleast

theorem evict_of_heavy (hheavy : ¬ weight.toNat ≤ budget)
    (h : (besides path table).argmin stamp = some e) :
    evict stamp path budget weight table
      = e :: evict stamp path budget (weight - UInt64.ofNat e.handle.size)
        (besides e.handle.path table) := by
  rw [evict, if_neg hheavy]
  split
  · next hleast =>
    rw [h] at hleast
    cases hleast
  · next hleast =>
    rw [h] at hleast
    cases hleast
    rfl

theorem besides_self (h : e.key ∉ es.map Entry.key) : besides e.handle.path (e :: es) = es := by
  rw [besides, List.filter_cons_of_neg (by simp)]
  exact filter_of_apart h

/-- Where the stamps rise along a list, the first entry has the least. -/
theorem argmin_of_rising (hrising : (e :: es).Pairwise (stamp · < stamp ·))
    (htable : table.Perm (e :: es)) : table.argmin stamp = some e := by
  have he : e ∈ table := htable.mem_iff.mpr List.mem_cons_self
  rcases hleast : table.argmin stamp with _ | first
  · rw [List.argmin_eq_none.mp hleast] at he
    cases he
  · have hle : stamp first ≤ stamp e := List.le_of_mem_argmin he hleast
    have hfirst : first ∈ e :: es := htable.mem_iff.mp (List.argmin_mem hleast)
    rcases List.mem_cons.mp hfirst with rfl | hlater
    · rfl
    · exact absurd ((List.pairwise_cons.mp hrising).1 first hlater) (Nat.not_lt.mpr hle)

/-- **Looking for the least stamp comes to the same as going down the list.** The order in which the
table has its entries does not matter. -/
theorem evict_eq_victims (hrising : es.Pairwise (stamp · < stamp ·))
    (hapart : ((new :: es).map Entry.key).Nodup) (htable : table.Perm (new :: es))
    (hweight : weight.toNat = total es + new.handle.size) :
    evict stamp new.handle.path budget weight table
      = victims budget (total es + new.handle.size) es := by
  -- On the list; when its first entry leaves, the table is left with what the list is left with.
  induction es generalizing table weight with
  | nil =>
    have hothers : besides new.handle.path table = [] := by
      have hperm := htable.filter (!·.handle.path.sameKey new.handle.path)
      simpa [besides] using hperm
    rw [victims]
    exact evict_of_none (by rw [hothers]; rfl)
  | cons e rest ih =>
    have hnew : new.key ∉ (e :: rest).map Entry.key := (List.nodup_cons.mp hapart).1
    have hothers : (besides new.handle.path table).Perm (e :: rest) := by
      have hperm := htable.filter (!·.handle.path.sameKey new.handle.path)
      rwa [← besides, ← besides, besides_self hnew] at hperm
    rw [victims]
    split
    · next hfits =>
      rw [← hweight] at hfits
      rw [evict, if_pos hfits]
    · next hheavy =>
      rw [← hweight] at hheavy
      have hswapped : table.Perm (e :: new :: rest) := htable.trans (.swap _ _ _)
      have hkeys : ((e :: new :: rest).map Entry.key).Nodup :=
        (List.Perm.swap ..).nodup_iff.mp hapart
      have hleft : (besides e.handle.path table).Perm (new :: rest) := by
        have hperm := hswapped.filter (!·.handle.path.sameKey e.handle.path)
        rwa [← besides, ← besides, besides_self (List.nodup_cons.mp hkeys).1] at hperm
      have hrest : total (e :: rest) + new.handle.size - e.handle.size
          = total rest + new.handle.size := by
        rw [total_cons]
        omega
      have hlighter : (weight - UInt64.ofNat e.handle.size).toNat
          = total rest + new.handle.size := by
        rw [toNat_sub_size (by rw [hweight, total_cons]; omega), hweight, hrest]
      rw [evict_of_heavy hheavy (argmin_of_rising hrising hothers), hrest,
        ih (List.pairwise_cons.mp hrising).2 (List.nodup_cons.mp hkeys).2 hleft hlighter]

end Table

/-! ## What an admission does -/

section Admission

variable {c c' : Cache ι} {path : Path} {h : Handle ι} (env : Environment σ ι) {s s' : σ}

/-- The record of the departure of a path's own entry, if it has one. -/
def ousted (c : Cache ι) (path : Path) (reason : RemovalReason) : List (Nat × RemovalReason) :=
  (c.entry? path).toList.map fun e => (e.handle.id, reason)

theorem departures_remove (c : Cache ι) (path : Path) (reason : RemovalReason) :
    (c.remove path reason).2.departures = c.departures ++ c.ousted path reason := by
  unfold remove ousted
  cases c.entry? path with
  | none => simp
  | some e => simp

theorem departures_of_missed {now : Nat} (hl : c.lookup now path = (none, c')) :
    c'.departures = c.departures ++ c.ousted path .expired := by
  rcases c.lookup_cases path now with ⟨hvacant, heq⟩ | ⟨e, hfound, _, heq⟩ | ⟨e, _, _, heq⟩
  · rw [heq] at hl
    cases hl
    simp [ousted, hvacant]
  · rw [heq] at hl
    cases hl
    simp [ousted, hfound]
  · rw [heq] at hl
    cases hl

/-- What becomes of the cache when a handle is let in: of the entries of other paths the victims leave,
the rest stays as it is, and the handle comes last. -/
structure Admitted (budget now : Nat) (h : Handle ι) (reason : RemovalReason)
    (c c' : Cache ι) : Prop where
  light : h.size ≤ budget
  entries : c'.entries
    = spared budget (total (besides h.path c.entries) + h.size) (besides h.path c.entries)
      ++ [⟨h, now⟩]
  departures : c'.departures = c.departures ++ c.ousted h.path reason
    ++ (victims budget (total (besides h.path c.entries) + h.size) (besides h.path c.entries)).map
      fun e => (e.handle.id, .weight)

theorem Admitted.of_frame {c'' : Cache ι} {now : Nat} {reason : RemovalReason}
    (hadmitted : Admitted budget now h reason c c') (hf : Frame c' c'') :
    Admitted budget now h reason c c'' :=
  ⟨hadmitted.light, hf.entries.trans hadmitted.entries,
    hf.departures.trans hadmitted.departures⟩

theorem Sound.departures_clear (hc : c.Sound) (hbudget : c.config.weightBudget = some budget)
    (h : Handle ι) (s : σ) : (clear env c h s).departures
      = c.departures ++ c.ousted h.path .replaced
        ++ (victims budget (total (besides h.path c.entries) + h.size)
          (besides h.path c.entries)).map fun e => (e.handle.id, .weight) := by
  have hwatched : (c.watch (env.presence s h.path) h.path).Sound := ⟨hc.apart, hc.weight⟩
  have hmoves := remove_moves (c := c.watch (env.presence s h.path) h.path) (p := []) (n := 0)
    h.path .replaced
  have hremoved : ((c.watch (env.presence s h.path) h.path).remove h.path .replaced).2.Sound :=
    hmoves.sound hwatched
  have hconfig : ((c.watch (env.presence s h.path) h.path).remove h.path .replaced).2.config
      = c.config := hmoves.config
  rw [clear, makeRoom, hconfig, hbudget]
  dsimp only
  rw [expelAll_departures, departures_remove, hremoved.weight, entries_remove]
  rfl

theorem Sound.admitted_accept {offered : Handle ι} (hc : c.Sound)
    (hbudget : c.config.weightBudget = some budget)
    (haccept : c.accept env offered s = (.ok h, c')) :
    h = offered ∧ Admitted budget (env.now s) h .replaced c c' := by
  rcases c.accept_cases env offered s with ⟨_, _, _, heq⟩ | ⟨_, _, heq⟩ | ⟨hfits, _, heq⟩
  · rw [heq] at haccept
    cases haccept
  · rw [heq] at haccept
    cases haccept
  · rw [heq] at haccept
    cases haccept
    refine ⟨rfl, hfits budget hbudget, ?_, hc.departures_clear env hbudget h s⟩
    have hentries := hc.entries_clear env h s
    rw [roomy, hbudget] at hentries
    exact congrArg (· ++ [_]) hentries

theorem Sound.admitted_put (hc : c.Sound) (hbudget : c.config.weightBudget = some budget)
    {index : ι} (hput : c.put env path index s = (.ok h, c')) :
    Admitted budget (env.now s) h .replaced c c' := by
  have hmade : ({ c with made := c.made + 1 } : Cache ι).Sound := ⟨hc.apart, hc.weight⟩
  rcases c.put_cases env path s index with ⟨_, heq⟩ | ⟨_, e, _, heq⟩ | ⟨_, _, heq⟩
  · rw [heq] at hput
    cases hput
  · rw [heq] at hput
    cases hput
  · rw [heq] at hput
    obtain ⟨-, hlight, hentries, hdepartures⟩ := hmade.admitted_accept env hbudget hput
    exact ⟨hlight, hentries, hdepartures⟩

theorem Sound.admitted_loadAndInsert (hc : c.Sound)
    (hbudget : c.config.weightBudget = some budget) (hvacant : c.entry? path = none)
    (hload : c.loadAndInsert env path s = (.ok h, c', s')) :
    h.path = path ∧ Admitted budget (env.now s') h .replaced c c' := by
  have hlookup : c.lookup (env.now s) path = (none, c) := by rw [lookup, hvacant]
  rcases c.fetch_cases env path s with ⟨_, heq⟩ | ⟨_, e, s₁, _, heq⟩ | ⟨_, index, s₁, _, heq⟩
  · simp [loadAndInsert, hlookup, heq] at hload
  · simp [loadAndInsert, hlookup, heq] at hload
  · have hloaded : c.countLoad.Sound := ⟨hc.apart, hc.weight⟩
    simp only [loadAndInsert, hlookup, heq, Prod.mk.injEq] at hload
    obtain ⟨hok, rfl, rfl⟩ := hload
    obtain ⟨rfl, hlight, hentries, hdepartures⟩ :=
      hloaded.admitted_accept env hbudget (Prod.ext hok rfl)
    exact ⟨rfl, hlight, hentries, hdepartures⟩

/-- If the path had an entry before the request, it was idle and has left as expired, so it is not there
any more when the handle comes. -/
theorem Admitted.of_missed {c₁ : Cache ι} {now now' : Nat}
    (hl : c.lookup now path = (none, c₁)) (hpath : h.path = path)
    (hadmitted : Admitted budget now' h .replaced c₁ c') : Admitted budget now' h .expired c c' := by
  have hvacant : c₁.ousted h.path .replaced = [] := by
    rw [ousted, hpath, vacant_of_missed path hl]
    rfl
  have hsame : besides h.path c₁.entries = besides h.path c.entries := by
    rw [entries_of_missed hl, hpath]
    exact besides_eq_self fun e he => (mem_besides.mp he).2
  obtain ⟨hlight, hentries, hdepartures⟩ := hadmitted
  rw [hsame] at hentries hdepartures
  rw [hvacant, List.append_nil, departures_of_missed hl, ← hpath] at hdepartures
  exact ⟨hlight, hentries, hdepartures⟩

/-- A request that has made a handle has not found one. -/
theorem Sound.admitted_get (hc : c.Sound) (hbudget : c.config.weightBudget = some budget)
    (hids : c.Each (·.id < c.made)) (hnew : c.made ≤ h.id)
    (hget : c.get env path s = (.ok h, c', s')) :
    Admitted budget (env.now s') h .expired c c' := by
  rcases c.get_cases env path s with ⟨_, heq⟩ | ⟨_, e, _, heq⟩ | ⟨_, _, found, c₁, hl, heq⟩ |
    ⟨_, _, c₁, hl, heq⟩
  · rw [heq] at hget
    cases hget
  · rw [heq] at hget
    cases hget
  · rw [heq] at hget
    cases hget
    rcases c.lookup_cases path (env.now s) with ⟨_, hcase⟩ | ⟨e, _, _, hcase⟩ |
      ⟨e, hfound, _, hcase⟩
    · rw [hl] at hcase
      cases hcase
    · rw [hl] at hcase
      cases hcase
    · rw [hl] at hcase
      cases hcase
      exact absurd (hids e (mem_of_found hfound)) (Nat.not_lt.mpr hnew)
  · have hmoves := lookup_moves (c := c) (p := []) (n := 0) path (env.now s)
    rw [hl] at hmoves
    have hsound : c₁.Sound := Moves.sound hmoves hc
    have hconfig : c₁.config = c.config := Moves.config hmoves
    have hmissed : c₁.countMiss.Sound := ⟨hsound.apart, hsound.weight⟩
    rw [heq] at hget
    rw [← hconfig] at hbudget
    have hvacant : c₁.entry? path = none := vacant_of_missed path hl
    obtain ⟨hpath, hlight, hentries, hdepartures⟩ :=
      hmissed.admitted_loadAndInsert env hbudget hvacant hget
    exact Admitted.of_missed hl hpath ⟨hlight, hentries, hdepartures⟩

end Admission

end Cache

namespace Service

/-! ## The number of an access -/

/-- The number of the last access to a path. Accesses are numbered from one, and a path without an
access has zero. -/
def lastNumber (log : List (Path × Nat)) (path : Path) : Nat :=
  log.length - log.reverse.findIdx (·.1.sameKey path)

theorem lastNumber_le (log : List (Path × Nat)) (path : Path) :
    lastNumber log path ≤ log.length :=
  Nat.sub_le _ _

theorem lastNumber_concat_of_sameKey (log : List (Path × Nat)) {path path' : Path} (now : Nat)
    (hsame : path'.sameKey path = true) :
    lastNumber (log ++ [(path', now)]) path = log.length + 1 := by
  simp [lastNumber, List.findIdx_cons, hsame]

theorem lastNumber_concat_of_other (log : List (Path × Nat)) {path path' : Path} (now : Nat)
    (hother : path'.sameKey path = false) :
    lastNumber (log ++ [(path', now)]) path = lastNumber log path := by
  simp [lastNumber, List.findIdx_cons, hother]

/-! ## The list is in the order of the numbers -/

/-- Along the list of entries the numbers of the last accesses rise. -/
def Ranked (log : List (Path × Nat)) (s : Service σ ι) : Prop :=
  s.cache.entries.Pairwise fun a b =>
    lastNumber log a.handle.path < lastNumber log b.handle.path

section Ranked

variable {env : Environment σ ι} {s : Service σ ι} {action : Action σ ι} {path : Path}
  {h : Handle ι} {log : List (Path × Nat)}

/-- An access to one path leaves the numbers of all others. -/
theorem lastNumber_of_other {es : List (Entry ι)} (log : List (Path × Nat)) (now : Nat)
    {e : Entry ι} (he : e ∈ Cache.besides path es) :
    lastNumber (log ++ [(path, now)]) e.handle.path = lastNumber log e.handle.path := by
  obtain ⟨-, hother⟩ := Cache.mem_besides.mp he
  rw [Path.sameKey_symm] at hother
  exact lastNumber_concat_of_other log now hother

theorem Ranked.act (hranked : Ranked log s) (hs : s.cache.Sound) (action : Action σ ι) :
    Ranked (log ++ ((s.access? env action).map fun access =>
        (access.1, env.now (s.act env action).2.world)).toList) (s.act env action).2 := by
  rcases haccess : s.access? env action with _ | ⟨path, h⟩
  · rw [Option.map_none, Option.toList_none, List.append_nil]
    exact hranked.sublist (sublist_of_no_access hs haccess)
  · obtain ⟨-, kept, hkept, hentries⟩ := renewed_of_access hs haccess
    have hsame : path.sameKey h.path = true := Path.sameKey_comm (sameKey_of_access haccess)
    simp only [Option.map_some, Option.toList_some]
    unfold Ranked
    rw [hentries, List.pairwise_append]
    refine ⟨?_, List.pairwise_singleton _ _, ?_⟩
    · refine (hranked.sublist (hkept.trans (Cache.besides_sublist _ _))).imp_of_mem ?_
      intro a b ha hb hlt
      rwa [lastNumber_of_other log _ (hkept.subset ha), lastNumber_of_other log _ (hkept.subset hb)]
    · intro a ha b hb
      rw [List.mem_singleton.mp hb, lastNumber_concat_of_sameKey log _ hsame,
        lastNumber_of_other log _ (hkept.subset ha)]
      exact Nat.lt_succ_of_le (lastNumber_le _ _)

theorem Ranked.run {actions : List (Action σ ι)} (hranked : Ranked log s) (hs : s.cache.Sound) :
    Ranked (log ++ accesses env actions s) (s.run env actions) := by
  induction actions generalizing s log with
  | nil =>
    rw [accesses, List.append_nil]
    exact hranked
  | cons action rest ih =>
    have hrest := ih (hranked.act hs action) ((act_moves env action hs 0).sound hs)
    rw [accesses, ← List.append_assoc]
    exact hrest

/-! ## The law -/

/-- Why the entry of a path leaves when the action puts a handle in its place. A request comes to that
only if the entry was idle. -/
def ousting (action : Action σ ι) : RemovalReason := if action.isPut then .replaced else .expired

theorem admitted_of_admission {world : σ} {n budget : Nat} (hs : s.Consistent n)
    (hbudget : s.cache.config.weightBudget = some budget)
    (hadmitted : s.admission? env action = some (h, world)) :
    Cache.Admitted budget (env.now world) h (ousting action) s.cache
      (s.act env action).2.cache := by
  obtain ⟨path, haccess, hnew, rfl⟩ := admission?_eq_some.mp hadmitted
  obtain ⟨hpath, hanswer⟩ := answer_of_access haccess
  refine Cache.Admitted.of_frame ?_ (Cache.frame_settle _ _)
  cases action with
  | get path' =>
    rcases hget : s.cache.get env path' s.world with ⟨result, c', s'⟩
    simp only [act, perform, hget, Answer.handle.injEq] at hanswer
    subst hanswer
    simp only [act, perform, hget]
    exact hs.sound.admitted_get env hbudget hs.lt_made hnew hget
  | put path' index =>
    rcases hput : s.cache.put env path' index s.world with ⟨result, c'⟩
    simp only [act, perform, hput, Answer.handle.injEq] at hanswer
    subst hanswer
    simp only [act, perform, hput]
    exact hs.sound.admitted_put env hbudget hput
  | query _ _ _ | invalidate _ | sweep | poll | shutdown | share _ | drop _ | release | drain
  | lag _ | blind | drift _ => cases hpath

end Ranked

theorem accesses_append (env : Environment σ ι) (before after : List (Action σ ι))
    (s : Service σ ι) :
    accesses env (before ++ after) s
      = accesses env before s ++ accesses env after (s.run env before) := by
  induction before generalizing s with
  | nil => rfl
  | cons action rest ih =>
    rw [List.cons_append, accesses, accesses, ih, List.append_assoc]
    rfl

/-- How a cache makes room for a handle. The entries of other paths are those that are gone and those
that are kept, and `log` and `log'` are the accesses before and after. -/
structure MakesRoom (budget now : Nat) (h : Handle ι) (reason : RemovalReason)
    (log log' : List (Path × Nat)) (c c' : Cache ι) (gone kept : List (Entry ι)) : Prop where
  others : Cache.besides h.path c.entries = gone ++ kept
  /-- They stand in the order of their last accesses. -/
  ordered : (gone ++ kept).Pairwise fun a b =>
    lastNumber log a.handle.path < lastNumber log b.handle.path
  fits : Cache.total kept + h.size ≤ budget
  /-- Nothing that leaves could have stayed with all that was accessed later. -/
  shortest : ∀ fewer more, gone ++ kept = fewer ++ more →
    Cache.total more + h.size ≤ budget → gone <+: fewer
  departures : c'.departures = c.departures ++ c.ousted h.path reason
    ++ gone.map fun e => (e.handle.id, .weight)
  /-- The entries that are kept are as they were, and the new one comes last. -/
  entries : c'.entries = kept ++ [⟨h, now⟩]
  numbers : ∀ e ∈ kept, lastNumber log' e.handle.path = lastNumber log e.handle.path
  newest : ∀ e ∈ kept, lastNumber log' e.handle.path < lastNumber log' h.path
  /-- Looking for the least number in a table finds the same entries, with the weight in 64 bits. -/
  loop : ∀ table : List (Entry ι), table.Perm (⟨h, now⟩ :: (gone ++ kept)) →
    Cache.evict (fun e => lastNumber log' e.handle.path) h.path budget (Cache.counted table) table
      = gone

theorem MakesRoom.of_admitted {budget now : Nat} {h : Handle ι} {reason : RemovalReason}
    {log log' : List (Path × Nat)} {c c' : Cache ι} (hc : c.Sound)
    (hadmitted : Cache.Admitted budget now h reason c c')
    (hordered : (Cache.besides h.path c.entries).Pairwise fun a b =>
      lastNumber log a.handle.path < lastNumber log b.handle.path)
    (hnumbers : ∀ e ∈ Cache.besides h.path c.entries,
      lastNumber log' e.handle.path = lastNumber log e.handle.path ∧
        lastNumber log' e.handle.path < lastNumber log' h.path)
    (hsum : Cache.total (Cache.besides h.path c.entries) + h.size < UInt64.size) :
    let others := Cache.besides h.path c.entries
    MakesRoom budget now h reason log log' c c'
      (Cache.victims budget (Cache.total others + h.size) others)
      (Cache.spared budget (Cache.total others + h.size) others) := by
  intro others
  have hparts := Cache.victims_append_spared budget (Cache.total others + h.size) others
  have hkept : ∀ e ∈ Cache.spared budget (Cache.total others + h.size) others, e ∈ others := by
    intro e he
    rw [← hparts]
    exact List.mem_append_right _ he
  have hrising : others.Pairwise fun a b =>
      lastNumber log' a.handle.path < lastNumber log' b.handle.path := by
    refine hordered.imp_of_mem fun ha hb hlt => ?_
    rwa [(hnumbers _ ha).1, (hnumbers _ hb).1]
  have hapart : (((⟨h, now⟩ : Entry ι) :: others).map Entry.key).Nodup := by
    rw [List.map_cons, List.nodup_cons]
    refine ⟨fun hmem => ?_, hc.apart.sublist ((Cache.besides_sublist _ _).map _)⟩
    obtain ⟨e, he, hkey⟩ := List.mem_map.mp hmem
    have hother := (Cache.mem_besides.mp he).2
    rw [Path.sameKey_iff.mpr hkey] at hother
    cases hother
  constructor
  · exact hparts.symm
  · rw [hparts]
    exact hordered
  · exact Cache.fits_of_spared others hadmitted.light
  · intro fewer more heq hfits
    rw [hparts] at heq
    exact Cache.victims_shortest heq hfits
  · exact hadmitted.departures
  · exact hadmitted.entries
  · exact fun e he => (hnumbers e (hkept e he)).1
  · exact fun e he => (hnumbers e (hkept e he)).2
  · intro table htable
    rw [hparts] at htable
    have hweight : Cache.total table = Cache.total others + h.size := by
      rw [Cache.total_perm htable, Cache.total_cons, Nat.add_comm]
    have hcounted : (Cache.counted table).toNat = Cache.total others + h.size := by
      rw [Cache.toNat_counted (by rwa [hweight]), hweight]
    exact Cache.evict_eq_victims hrising hapart htable hcounted

/-- **The least recently used leave, and no more of them than have to.** Whatever has happened to a
cache with a budget, when an action lets a handle in, then of the entries of other paths the first in the
order of their last accesses leave until the rest and the handle fit. The path's own entry leaves before
that, as replaced, or as expired if a request has found it idle. All others stay as they are, and so
does their order. The sizes of all that is there then must sum to less than 64 bits can count. -/
theorem admission_makes_room (env : Environment σ ι) (config : CacheConfig)
    (observer : Option (Watcher Unit)) (world : σ) (actions : List (Action σ ι))
    (action : Action σ ι) :
    let fresh := start config observer world
    let s := fresh.run env actions
    ∀ (budget : Nat) (h : Handle ι) (world' : σ), config.weightBudget = some budget →
      s.admission? env action = some (h, world') →
      Cache.total (Cache.besides h.path s.cache.entries) + h.size < UInt64.size →
      ∃ gone kept, MakesRoom budget (env.now world') h (ousting action)
        (accesses env actions fresh) (accesses env (actions ++ [action]) fresh)
        s.cache (s.act env action).2.cache gone kept := by
  intro fresh s budget h world' hbudget hadmission hsum
  have hstart : fresh.Consistent 0 := start_consistent config observer world
  obtain ⟨n, hs⟩ : ∃ n, s.Consistent n := hstart.run env actions
  have hconfig : s.cache.config = config := Moves.config (run_moves env actions hstart.sound 0)
  have hfresh : Ranked [] fresh := List.Pairwise.nil
  have hranked : Ranked (accesses env actions fresh) s := hfresh.run hstart.sound
  rw [← hconfig] at hbudget
  have hadmitted := admitted_of_admission hs hbudget hadmission
  obtain ⟨path, haccess, -, rfl⟩ := admission?_eq_some.mp hadmission
  have hsame : h.path.sameKey path = true := sameKey_of_access haccess
  have hlog : accesses env (actions ++ [action]) fresh
      = accesses env actions fresh ++ [(path, env.now (s.act env action).2.world)] := by
    rw [accesses_append, accesses, accesses, haccess]
    rfl
  refine ⟨_, _, MakesRoom.of_admitted hs.sound hadmitted
    (hranked.sublist (Cache.besides_sublist _ _)) (fun e he => ?_) hsum⟩
  rw [Cache.besides_congr hsame] at he
  have hnumber := lastNumber_of_other (accesses env actions fresh)
    (env.now (s.act env action).2.world) he
  rw [hlog, hnumber, lastNumber_concat_of_sameKey _ _ (Path.sameKey_comm hsame)]
  exact ⟨rfl, Nat.lt_succ_of_le (lastNumber_le _ _)⟩

/-- A larder with room for ten. -/
def larder : Service Nat Nat := start { weightCircuitBreaker := true, maxWeightBytes := 10 } none 0

/-- Nine are stored, the three of them are fetched again, and the four are only looked at. -/
def stored : List (Action Nat Nat) :=
  [.put ⟨"a"⟩ 3, .put ⟨"b"⟩ 4, .put ⟨"c"⟩ 2, .drift 5, .get ⟨"a"⟩, .query 1 [] 1, .drift 7]

/-- Six come in the place of the two, and for them the four have to go. -/
theorem admission_makes_room_in_larder :
    let log := accesses Environment.clock stored larder
    let log' := accesses Environment.clock (stored ++ [.put ⟨"c"⟩ 6]) larder
    let c := (larder.run Environment.clock stored).cache
    let c' := ((larder.run Environment.clock stored).act Environment.clock (.put ⟨"c"⟩ 6)).2.cache
    c'.departures = [(2, .replaced), (1, .weight)] ∧
    ∃ gone kept, MakesRoom 10 7 ⟨3, ⟨"c"⟩, 6, 6⟩ .replaced log log' c c' gone kept ∧
      gone.map (·.handle.id) = [1] ∧ kept.map (·.handle.id) = [0] := by
  intro log log' c c'
  obtain ⟨gone, kept, hroom⟩ := admission_makes_room Environment.clock
    { weightCircuitBreaker := true, maxWeightBytes := 10 } none 0 stored (.put ⟨"c"⟩ 6)
    10 ⟨3, ⟨"c"⟩, 6, 6⟩ 7 rfl rfl (by decide +kernel)
  have hgone : [(2, .replaced)] ++ [(1, .weight)]
      = [(2, .replaced)] ++ gone.map fun e => (e.handle.id, RemovalReason.weight) :=
    hroom.departures
  have hids := congrArg (List.map Prod.fst) (List.append_cancel_left hgone)
  have hkept : [0] ++ [3] = (kept.map fun e => e.handle.id) ++ [3] :=
    (congrArg (List.map fun e : Entry Nat => e.handle.id) hroom.entries).trans List.map_append
  refine ⟨rfl, gone, kept, hroom, ?_, (List.append_cancel_right hkept).symm⟩
  rw [List.map_map] at hids
  exact hids.symm

/-- A cache with room for half of what 64 bits can count, and with an entry that takes it all. -/
def halved : Service Nat Nat :=
  (start { weightCircuitBreaker := true, maxWeightBytes := 9223372036854775808 } none 0).run
    Environment.clock [.put ⟨"a"⟩ 9223372036854775808, .drift 1]

/-- Its entries, when another one as heavy has come in. -/
def halves : List (Entry Nat) :=
  halved.cache.entries ++ [⟨⟨1, ⟨"b"⟩, 9223372036854775808, 9223372036854775808⟩, 1⟩]

/-- A path that is idle leaves as expired when it is asked for again, not as replaced. And when two
entries that weigh half of what 64 bits can count are in a table with room for one, the first would
have to go for the second, but the weight of both is counted as nothing and none leaves. -/
theorem admission_past_64_bits :
    (let idle := (start { idleTimeoutMs := 1 } none 0).run Environment.clock
      [.get ⟨"a"⟩, .drift 1000000]
    idle.admission? Environment.clock (.get ⟨"a"⟩) = some (⟨1, ⟨"a"⟩, 1, 1⟩, 1000000) ∧
    idle.cache.entries.map (·.handle.id) = [0] ∧
    (idle.act Environment.clock (.get ⟨"a"⟩)).2.cache.departures = [(0, .expired)]) ∧
    halved.admission? Environment.clock (.put ⟨"b"⟩ 9223372036854775808)
      = some (⟨1, ⟨"b"⟩, 9223372036854775808, 9223372036854775808⟩, 1) ∧
    (Cache.victims 9223372036854775808 (Cache.total halves) (Cache.besides ⟨"b"⟩ halves)).map
      (·.handle.id) = [0] ∧
    Cache.evict (fun e => e.lastAccess) ⟨"b"⟩ 9223372036854775808 (Cache.counted halves) halves
      = [] := by
  refine ⟨⟨rfl, by decide +kernel, by decide +kernel⟩, rfl, by decide +kernel, ?_⟩
  have hnothing : Cache.counted halves = 0 := by decide +kernel
  rw [hnothing, Cache.evict, if_pos (by decide)]

end Service

end Sidecar
