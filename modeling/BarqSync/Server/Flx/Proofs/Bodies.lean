/-
What the loops of a session's bodies do: one lemma for each function of
`Server.Flx.Session`, in terms of which objects are in the view and which
the session's record tracks.

# Keys

The record is a map from keys. `Keyed` says that each object stands under
its own key and comes from a table whose name has no tab; then the map is
a set of objects, and `Tracks` is membership.
-/
import BarqSync.Server.Flx.System
import BarqSync.Server.Flx.Proofs.Keys

namespace BarqSync.Flx

open FlxContent FlxEnv

variable {m : VisibleObjects}

-- ===== the maps

/-- Every object stands under its own key. -/
def Keyed (m : VisibleObjects) : Prop :=
  ∀ k r, m[k]? = some r → k = flxVisibleObjectKey r ∧ 9 ∉ r.1

/-- The object is in the map. -/
def Tracks (m : VisibleObjects) (r : ObjectRef) : Prop :=
  m[flxVisibleObjectKey r]? = some r

theorem keyed_empty : Keyed ∅ := by
  intro k r h
  rw [Std.ExtTreeMap.getElem?_empty] at h
  cases h

theorem not_tracks_empty (r : ObjectRef) : ¬ Tracks ∅ r := by
  intro h
  rw [Tracks, Std.ExtTreeMap.getElem?_empty] at h
  cases h

section keyed

variable {m : VisibleObjects} {r r' : ObjectRef}

section

variable (hm : Keyed m)

include hm

theorem Keyed.noTab (h : Tracks m r) : 9 ∉ r.1 :=
  (hm _ _ h).2

/-- What stands under an object's key is the object. -/
theorem Keyed.eq_of_get (hr : 9 ∉ r.1)
    (h : m[flxVisibleObjectKey r]? = some r') : r' = r := by
  obtain ⟨hkey, hr'⟩ := hm _ _ h
  exact flxVisibleObjectKey_inj hr' hr hkey.symm

theorem Keyed.insert (hr : 9 ∉ r.1) :
    Keyed (m.insert (flxVisibleObjectKey r) r) := by
  intro k r' h
  rw [Std.ExtTreeMap.getElem?_insert] at h
  by_cases hk : compare (flxVisibleObjectKey r) k = .eq
  · rw [if_pos hk] at h
    cases h
    exact ⟨(Std.compare_eq_iff_eq.1 hk).symm, hr⟩
  · rw [if_neg hk] at h
    exact hm k r' h

theorem Keyed.erase (k : Bytes) : Keyed (m.erase k) := by
  intro k' r' h
  rw [Std.ExtTreeMap.getElem?_erase] at h
  by_cases hk : compare k k' = .eq
  · rw [if_pos hk] at h
    cases h
  · rw [if_neg hk] at h
    exact hm k' r' h

theorem tracks_insert (hr : 9 ∉ r.1) :
    Tracks (m.insert (flxVisibleObjectKey r) r) r'
      ↔ r' = r ∨ Tracks m r' := by
  rw [Tracks, Std.ExtTreeMap.getElem?_insert]
  by_cases hk : compare (flxVisibleObjectKey r) (flxVisibleObjectKey r')
      = .eq
  · rw [if_pos hk]
    have hkey := Std.compare_eq_iff_eq.1 hk
    constructor
    · intro h
      exact .inl (Option.some.inj h).symm
    · intro h
      rcases h with rfl | h
      · rfl
      · rw [flxVisibleObjectKey_inj hr (hm.noTab h) hkey]
  · rw [if_neg hk]
    constructor
    · exact .inr
    · intro h
      rcases h with rfl | h
      · exact absurd (Std.compare_eq_iff_eq.2 rfl) hk
      · exact h

theorem tracks_erase (hr : 9 ∉ r.1) :
    Tracks (m.erase (flxVisibleObjectKey r)) r'
      ↔ r' ≠ r ∧ Tracks m r' := by
  rw [Tracks, Std.ExtTreeMap.getElem?_erase]
  by_cases hk : compare (flxVisibleObjectKey r) (flxVisibleObjectKey r')
      = .eq
  · rw [if_pos hk]
    have hkey := Std.compare_eq_iff_eq.1 hk
    constructor
    · intro h
      cases h
    · intro ⟨hne, h⟩
      exact absurd (flxVisibleObjectKey_inj hr (hm.noTab h) hkey).symm hne
  · rw [if_neg hk]
    constructor
    · intro h
      refine ⟨?_, h⟩
      intro heq
      subst heq
      exact hk (Std.compare_eq_iff_eq.2 rfl)
    · exact And.right

/-- A key that is taken is taken by the object itself. -/
theorem Keyed.emplaceVisible_eq (hr : 9 ∉ r.1) :
    emplaceVisible m r = m.insert (flxVisibleObjectKey r) r := by
  apply Std.ExtTreeMap.ext_getElem?
  intro k
  rw [emplaceVisible, Std.ExtTreeMap.getElem?_insertIfNew,
    Std.ExtTreeMap.getElem?_insert]
  by_cases hmem : flxVisibleObjectKey r ∈ m
  · rw [if_neg fun h => h.2 hmem]
    split
    · next hk =>
      obtain ⟨r₀, hr0⟩ := Option.isSome_iff_exists.1
        (Std.ExtTreeMap.isSome_getElem?_iff_mem.2 hmem)
      rw [← Std.compare_eq_iff_eq.1 hk, hr0, hm.eq_of_get hr hr0]
    · rfl
  · simp only [hmem, not_false_eq_true, and_true]

end

end keyed

/-- Two keyed maps with the same objects are the same. -/
theorem Keyed.ext {m' : VisibleObjects} (hm : Keyed m) (hm' : Keyed m')
    (h : ∀ r, Tracks m r ↔ Tracks m' r) : m = m' := by
  apply Std.ExtTreeMap.ext_getElem?
  intro k
  apply Option.ext
  intro r
  constructor
  · intro hget
    obtain ⟨hkey, -⟩ := hm k r hget
    rw [hkey] at hget ⊢
    exact (h r).1 hget
  · intro hget
    obtain ⟨hkey, -⟩ := hm' k r hget
    rw [hkey] at hget ⊢
    exact (h r).2 hget

theorem Keyed.mem_toList (hm : Keyed m) {k : Bytes} {r : ObjectRef} :
    (k, r) ∈ m.toList ↔ k = flxVisibleObjectKey r ∧ Tracks m r := by
  rw [Std.ExtTreeMap.mem_toList_iff_getElem?_eq_some]
  constructor
  · intro h
    have hkey := (hm k r h).1
    exact ⟨hkey, by rw [Tracks, ← hkey, h]⟩
  · intro ⟨hkey, h⟩
    rw [hkey]
    exact h

theorem foldl_insert_spec {refs : List ObjectRef}
    (hnoTab : ∀ r ∈ refs, 9 ∉ r.1) :
    ∀ m : VisibleObjects, Keyed m →
      Keyed (refs.foldl (fun m r => m.insert (flxVisibleObjectKey r) r) m)
        ∧ ∀ r, Tracks
          (refs.foldl (fun m r => m.insert (flxVisibleObjectKey r) r) m) r
            ↔ Tracks m r ∨ r ∈ refs := by
  induction refs with
  | nil =>
    intro m hm
    exact ⟨hm, fun r => by simp⟩
  | cons r₀ refs ih =>
    intro m hm
    have hr0 : 9 ∉ r₀.1 := hnoTab r₀ List.mem_cons_self
    obtain ⟨hkeyed, htracks⟩ :=
      ih (fun r hr => hnoTab r (List.mem_cons_of_mem _ hr))
        (m.insert (flxVisibleObjectKey r₀) r₀) (hm.insert hr0)
    refine ⟨hkeyed, fun r => (htracks r).trans ?_⟩
    rw [tracks_insert hm hr0, List.mem_cons]
    tauto

theorem foldl_emplaceVisible {refs : List ObjectRef}
    (hnoTab : ∀ r ∈ refs, 9 ∉ r.1) (hm : Keyed m) :
    refs.foldl emplaceVisible m
      = refs.foldl (fun m r => m.insert (flxVisibleObjectKey r) r) m := by
  induction refs generalizing m with
  | nil => rfl
  | cons r₀ refs ih =>
    obtain ⟨hr0, hrest⟩ := List.forall_mem_cons.1 hnoTab
    rw [List.foldl_cons, List.foldl_cons, hm.emplaceVisible_eq hr0]
    exact ih hrest (hm.insert hr0)

theorem touchedObjects_spec {touched : List ObjectRef}
    (hnoTab : ∀ r ∈ touched, 9 ∉ r.1) :
    Keyed (touchedObjects touched)
      ∧ ∀ r, Tracks (touchedObjects touched) r ↔ r ∈ touched := by
  obtain ⟨hkeyed, htracks⟩ := foldl_insert_spec hnoTab ∅ keyed_empty
  refine ⟨hkeyed, fun r => (htracks r).trans ?_⟩
  simp only [not_tracks_empty, false_or]

theorem foldl_forcedRemoval (refs : List ObjectRef) :
    ∀ s : FlxSession, refs.foldl FlxSession.forcedRemoval s
      = { s with
          visible := refs.foldl
            (fun m r => m.insert (flxVisibleObjectKey r) r)
            s.visible } := by
  induction refs with
  | nil => exact fun s => rfl
  | cons r refs ih => exact fun s => ih (s.forcedRemoval r)

-- ===== the view

theorem mem_of_lookup {α β : Type*} [BEq α] [LawfulBEq α]
    {l : List (α × β)} {a : α} {b : β} (h : l.lookup a = some b) :
    (a, b) ∈ l := by
  obtain ⟨l1, l2, rfl, -⟩ := List.lookup_eq_some_iff.1 h
  exact List.mem_append_right l1 List.mem_cons_self

/-- No table of the snapshot has a tab in its name. -/
def FlxDb.NoTab (db : FlxDb) : Prop := ∀ t ∈ db.tables, 9 ∉ t.1

section view

variable {env : FlxEnv} {db : FlxDb} {queries : FlxQueries}
  {r : ObjectRef}

/-- What is in the view exists, in a table with queries. -/
theorem FlxEnv.isVisible_iff : env.isVisible db queries r = true ↔
      ∃ compiled table fields,
        (env.compileFlxQueries db queries)[r.1]? = some compiled
          ∧ db.getTable r.1 = some table ∧ db.findObject r = some fields
          ∧ env.matchesCompiledTable db compiled table r fields = true := by
  simp only [isVisible, Option.any_eq_true]
  constructor
  · intro ⟨compiled, hc, table, ht, fields, hf, hmatch⟩
    exact ⟨compiled, table, fields, hc, ht, hf, hmatch⟩
  · intro ⟨compiled, table, fields, hc, ht, hf, hmatch⟩
    exact ⟨compiled, hc, table, ht, fields, hf, hmatch⟩

/-- What is in the view has an image to be sent. -/
theorem image_of_isVisible (h : env.isVisible db queries r = true) :
    ∃ changes, db.image r = some changes := by
  obtain ⟨-, table, fields, -, ht, hf, -⟩ := isVisible_iff.1 h
  exact ⟨db.fieldChanges r table fields, by
    rw [FlxDb.image, ht, Option.bind_some, hf, Option.map_some]⟩

theorem noTab_of_isVisible (hdb : db.NoTab)
    (h : env.isVisible db queries r = true) : 9 ∉ r.1 := by
  obtain ⟨-, table, -, -, ht, -, -⟩ := isVisible_iff.1 h
  exact hdb (r.1, table) (mem_of_lookup ht)

theorem FlxEnv.mem_viewObjects : r ∈ env.viewObjects db queries
      ↔ env.isVisible db queries r = true := by
  rw [viewObjects, List.mem_flatMap]
  constructor
  · intro h
    obtain ⟨compiled, -, hr⟩ := h
    have hr := (List.mem_filter.1 hr).2
    exact (Bool.and_eq_true_iff.1 hr).2
  · intro h
    obtain ⟨compiled, table, fields, hc, -, hf, -⟩ :=
      isVisible_iff.1 h
    refine ⟨(r.1, compiled),
      Std.ExtTreeMap.mem_toList_iff_getElem?_eq_some.2 hc, ?_⟩
    obtain ⟨stored, hs, -⟩ := Option.map_eq_some_iff.1 hf
    refine List.mem_filter.2 ⟨?_, by simp [h]⟩
    exact List.mem_map.2 ⟨(r, stored), mem_of_lookup hs, rfl⟩

/-- `final_visible_objects` is the view. -/
theorem finalVisible_spec (hdb : db.NoTab) :
    Keyed (env.finalVisible db queries)
      ∧ ∀ r, Tracks (env.finalVisible db queries) r
        ↔ env.isVisible db queries r = true := by
  have hnoTab : ∀ r ∈ env.viewObjects db queries, 9 ∉ r.1 :=
    fun r hr => noTab_of_isVisible hdb (mem_viewObjects.1 hr)
  obtain ⟨hkeyed, htracks⟩ := foldl_insert_spec hnoTab ∅ keyed_empty
  rw [← foldl_emplaceVisible hnoTab keyed_empty] at hkeyed htracks
  refine ⟨hkeyed, fun r => (htracks r).trans ?_⟩
  rw [mem_viewObjects]
  simp only [not_tracks_empty, false_or]

end view

-- ===== bootstrap

section append

variable {db : FlxDb} {final : VisibleObjects} {skip : Bytes → Bool}
  {acc : List Bytes × List ObjectRef} {key : Bytes}

/-- What is emitted and not skipped has been appended, and nothing but
objects of the view that are not skipped has. -/
structure Appended (final : VisibleObjects) (skip : Bytes → Bool)
    (acc : List Bytes × List ObjectRef) : Prop where
  appended : ∀ k r, k ∈ acc.1 → final[k]? = some r → skip k = false
    → r ∈ acc.2
  sound : ∀ r ∈ acc.2, ∃ k, final[k]? = some r ∧ skip k = false

/-- A key once emitted stays emitted. -/
def Extends (acc acc' : List Bytes × List ObjectRef) : Prop :=
  ∀ k ∈ acc.1, k ∈ acc'.1

theorem Appended.emitSkipped (h : Appended final skip acc)
    (hskip : skip key = true) :
    Appended final skip (key :: acc.1, acc.2) := by
  refine ⟨?_, h.sound⟩
  intro k r hk hr hnot
  rcases List.mem_cons.1 hk with rfl | hk
  · rw [hskip] at hnot
    cases hnot
  · exact h.appended k r hk hr hnot

theorem Appended.append (h : Appended final skip acc) {ref : ObjectRef}
    (hfinal : final[key]? = some ref) (hskip : skip key = false) :
    Appended final skip (key :: acc.1, acc.2 ++ [ref]) := by
  constructor
  · intro k r hk hr hnot
    rcases List.mem_cons.1 hk with rfl | hk
    · rw [hfinal] at hr
      cases hr
      exact List.mem_append_right _ List.mem_cons_self
    · exact List.mem_append_left _ (h.appended k r hk hr hnot)
  · exact List.forall_mem_append.2 ⟨h.sound,
      List.forall_mem_singleton.2 ⟨key, hfinal, hskip⟩⟩

/-- The objects that an object depends on. -/
def FlxDb.dependenciesOf (db : FlxDb) (ref : ObjectRef) :
    List ObjectRef :=
  ((db.getTable ref.1).bind fun table =>
    (db.findObject ref).map (db.dependencies table)).getD []

/-- A dependency is appended if it is final. -/
def appendDependency (db : FlxDb) (final : VisibleObjects)
    (skip : Bytes → Bool) (fuel : Nat) (visiting : List Bytes)
    (acc : List Bytes × List ObjectRef) (dep : ObjectRef) :
    List Bytes × List ObjectRef :=
  (final[flxVisibleObjectKey dep]?).elim acc
    (appendWithDependencies db final skip fuel visiting acc
      (flxVisibleObjectKey dep))

theorem appendWithDependencies_succ (fuel : Nat) (visiting : List Bytes)
    (acc : List Bytes × List ObjectRef) (key : Bytes) (ref : ObjectRef) :
    appendWithDependencies db final skip (fuel + 1) visiting acc key ref
      = if key ∈ acc.1 ∨ key ∈ visiting then acc
        else if skip key then (key :: acc.1, acc.2)
        else
          let acc := (db.dependenciesOf ref).foldl (appendDependency db
            final skip fuel (key :: visiting)) acc
          (key :: acc.1, acc.2 ++ [ref]) := rfl

/-- `append_flx_bootstrap_object_with_dependencies` keeps the relation
and emits what it is called for, unless that is being visited. -/
theorem appendWithDependencies_spec (fuel : Nat) :
    ∀ (visiting : List Bytes) (acc : List Bytes × List ObjectRef)
      (key : Bytes) (ref : ObjectRef), final[key]? = some ref →
      Appended final skip acc →
      let acc' := appendWithDependencies db final skip fuel visiting acc
        key ref
      Appended final skip acc' ∧ Extends acc acc'
        ∧ (0 < fuel → key ∉ visiting → key ∈ acc'.1) := by
  induction fuel with
  | zero =>
    intro visiting acc key ref _ hacc
    exact ⟨hacc, fun k hk => hk, fun h => absurd h (by omega)⟩
  | succ fuel ih =>
    intro visiting acc key ref hfinal hacc
    simp only [appendWithDependencies_succ]
    by_cases hseen : key ∈ acc.1 ∨ key ∈ visiting
    · rw [if_pos hseen]
      refine ⟨hacc, fun k hk => hk, fun _ hnot => ?_⟩
      exact hseen.resolve_right hnot
    rw [if_neg hseen]
    by_cases hskip : skip key = true
    · rw [if_pos hskip]
      exact ⟨hacc.emitSkipped hskip, fun k hk => List.mem_cons_of_mem _ hk,
        fun _ _ => List.mem_cons_self⟩
    rw [if_neg hskip]
    -- the dependencies, one after the other
    have hfold : ∀ (deps : List ObjectRef)
        (acc : List Bytes × List ObjectRef), Appended final skip acc →
        let acc' := deps.foldl (appendDependency db final skip fuel
          (key :: visiting)) acc
        Appended final skip acc' ∧ Extends acc acc' := by
      intro deps
      induction deps with
      | nil => exact fun acc hacc => ⟨hacc, fun k hk => hk⟩
      | cons dep deps ihdeps =>
        intro acc hacc
        simp only [List.foldl_cons, appendDependency]
        rcases hget : final[flxVisibleObjectKey dep]? with _ | dref
        · exact ihdeps acc hacc
        · obtain ⟨hone, hext, -⟩ := ih (key :: visiting) acc
            (flxVisibleObjectKey dep) dref hget hacc
          obtain ⟨hall, hext'⟩ := ihdeps _ hone
          exact ⟨hall, fun k hk => hext' k (hext k hk)⟩
    obtain ⟨hall, hext⟩ := hfold (db.dependenciesOf ref) acc hacc
    refine ⟨hall.append hfinal (Bool.eq_false_iff.2 hskip), ?_,
      fun _ _ => List.mem_cons_self⟩
    exact fun k hk => List.mem_cons_of_mem _ (hext k hk)

/-- The loop over `final_visible_objects` appends all of it that is not
skipped, in some order. -/
theorem foldl_append_spec (fuel : Nat) (hfuel : 0 < fuel)
    (entries : List (Bytes × ObjectRef)) :
    ∀ acc, (∀ e ∈ entries, final[e.1]? = some e.2) →
      Appended final skip acc →
      let acc' := entries.foldl
        (fun acc e => appendWithDependencies db final skip fuel [] acc
          e.1 e.2) acc
      Appended final skip acc' ∧ Extends acc acc'
        ∧ ∀ e ∈ entries, e.1 ∈ acc'.1 := by
  induction entries with
  | nil =>
    intro acc _ hacc
    exact ⟨hacc, fun k hk => hk, by simp⟩
  | cons e entries ih =>
    intro acc hentries hacc
    obtain ⟨hone, hext, hkey⟩ := @appendWithDependencies_spec db
      final skip fuel [] acc e.1 e.2 (hentries e List.mem_cons_self) hacc
    obtain ⟨hall, hext', hkeys⟩ := ih _
      (fun e' he' => hentries e' (List.mem_cons_of_mem _ he')) hone
    refine ⟨hall, fun k hk => hext' k (hext k hk), ?_⟩
    intro e' he'
    rcases List.mem_cons.1 he' with rfl | he'
    · exact hext' _ (hkey hfuel (by simp))
    · exact hkeys e' he'

end append

section prepare

variable {env : FlxEnv} {db : FlxDb} {s : FlxSession} {version : Nat}
  {r : ObjectRef}

/-- The objects of a bootstrap: the view, less what is believed to be at
the client already. -/
theorem mem_prepareBootstrap_objects (hdb : db.NoTab)
    (hs : Keyed s.visible) :
    r ∈ (s.prepareBootstrap env db version).objects
      ↔ env.isVisible db s.queries r = true
        ∧ (s.bootstrapSendAllObjects = false → ¬ Tracks s.visible r) := by
  obtain ⟨hkeyed, htracks⟩ :=
    @finalVisible_spec env db s.queries hdb
  obtain ⟨hall, -, hkeys⟩ := @foldl_append_spec db
    (env.finalVisible db s.queries)
    (fun key => !s.bootstrapSendAllObjects && s.visible.contains key)
    ((env.finalVisible db s.queries).size + 1) (by omega)
    (env.finalVisible db s.queries).toList ([], [])
    (fun e he => Std.ExtTreeMap.mem_toList_iff_getElem?_eq_some.1 he)
    ⟨fun _ _ h => absurd h (by simp), fun _ h => absurd h (by simp)⟩
  -- an object of the view is skipped when it is tracked
  have hskip : 9 ∉ r.1 → ((!s.bootstrapSendAllObjects
          && s.visible.contains (flxVisibleObjectKey r)) = false
        ↔ (s.bootstrapSendAllObjects = false → ¬ Tracks s.visible r)) := by
    intro hr
    rw [Std.ExtTreeMap.contains_eq_isSome_getElem?]
    rcases hget : s.visible[flxVisibleObjectKey r]? with _ | r'
    · simp [Tracks, hget]
    · have hrr := hs.eq_of_get hr hget
      subst hrr
      simp [Tracks, hget]
  constructor
  · intro hr
    obtain ⟨k, hk, hnot⟩ := hall.sound r hr
    obtain ⟨hkey, hnoTab⟩ := hkeyed k r hk
    subst hkey
    exact ⟨(htracks r).1 hk, (hskip hnoTab).1 hnot⟩
  · intro ⟨hview, hnot⟩
    have hfinal := (htracks r).2 hview
    refine hall.appended (flxVisibleObjectKey r) r ?_ hfinal
      ((hskip (noTab_of_isVisible hdb hview)).2 hnot)
    exact hkeys (flxVisibleObjectKey r, r)
      (Std.ExtTreeMap.mem_toList_iff_getElem?_eq_some.2 hfinal)

/-- The removals of a bootstrap: what is tracked outside the view. -/
theorem mem_prepareBootstrap_removals (hdb : db.NoTab)
    (hs : Keyed s.visible) :
    r ∈ (s.prepareBootstrap env db version).removals
      ↔ Tracks s.visible r ∧ env.isVisible db s.queries r = false := by
  obtain ⟨hkeyed, htracks⟩ :=
    @finalVisible_spec env db s.queries hdb
  -- a tracked object's key is a key of the view only by itself
  have hcontains : Tracks s.visible r →
      ((!(env.finalVisible db s.queries).contains
          (flxVisibleObjectKey r)) = true
        ↔ env.isVisible db s.queries r = false) := by
    intro hr
    rw [Std.ExtTreeMap.contains_eq_isSome_getElem?]
    rcases hget : (env.finalVisible db s.queries)[flxVisibleObjectKey r]?
      with _ | r'
    · have hnot : ¬ env.isVisible db s.queries r = true := by
        intro h
        have := (htracks r).2 h
        rw [Tracks, hget] at this
        cases this
      simpa using hnot
    · have hrr := hkeyed.eq_of_get (hs.noTab hr) hget
      subst hrr
      simp [(htracks r').1 hget]
  simp only [FlxSession.prepareBootstrap, List.mem_map, List.mem_filter]
  constructor
  · intro ⟨e, ⟨he, hnot⟩, hr⟩
    obtain ⟨k, r'⟩ := e
    obtain ⟨hkey, htr⟩ := hs.mem_toList.1 he
    subst hr
    subst hkey
    exact ⟨htr, (hcontains htr).1 hnot⟩
  · intro ⟨htr, hnot⟩
    exact ⟨(flxVisibleObjectKey r, r),
      ⟨hs.mem_toList.2 ⟨rfl, htr⟩, (hcontains htr).2 hnot⟩, rfl⟩

end prepare

-- ===== what a client makes of it

/-- The object a change is about. -/
def FlxChange.ref : FlxChange → ObjectRef
  | .object _ ref _ => ref
  | .erase ref => ref

section apply

variable {c c' : FlxContent} {body body' : FlxBody} {r : ObjectRef}
  {change : FlxChange}

theorem FlxContent.applyBody_append :
    c.applyBody (body ++ body') = (c.applyBody body).applyBody body' :=
  List.foldl_append

theorem FlxContent.apply_of_ne (h : r ≠ change.ref) :
    c.apply change r = c r := by
  cases change with
  | object | erase => exact Function.update_of_ne h _ _

/-- What a change makes of an object depends on that object only. -/
theorem FlxContent.apply_congr (h : c r = c' r) :
    c.apply change r = c'.apply change r := by
  by_cases hr : r = change.ref
  · subst hr
    cases change with
    | object _ ref changes =>
      simp only [apply, FlxChange.ref, Function.update_self]
      exact congrArg some (congrArg (FlxHeld.put · changes) h)
    | erase ref =>
      simp only [apply, FlxChange.ref, Function.update_self]
  · rw [apply_of_ne hr, apply_of_ne hr, h]

theorem FlxContent.applyBody_of_notMem (h : r ∉ body.map FlxChange.ref) :
    c.applyBody body r = c r := by
  induction body generalizing c with
  | nil => rfl
  | cons change body ih =>
    rw [List.map_cons, List.mem_cons, not_or] at h
    exact (ih h.2).trans (apply_of_ne h.1)

theorem FlxContent.applyBody_congr (h : c r = c' r) :
    c.applyBody body r = c'.applyBody body r := by
  induction body generalizing c c' with
  | nil => exact h
  | cons change body ih => exact ih (apply_congr h)

end apply

section

variable (held : Option FlxHeld) (changes : List (Bytes × List FlxInstr))

include held changes

theorem FlxHeld.put_put :
    FlxHeld.put (some (FlxHeld.put held changes)) changes
      = FlxHeld.put held changes := by
  funext name
  simp only [FlxHeld.put, Option.bind_some]
  cases changes.lookup name with
  | none => rfl
  | some _ => rfl

/-- After an object was sent the client has it as the snapshot does. -/
theorem agrees_put :
    Agrees (some (FlxHeld.put held changes)) (some changes) := by
  refine ⟨_, rfl, fun name instrs h => ?_⟩
  rw [FlxHeld.put, h, Option.some_or]

end

-- ===== the loops

section loops

variable {env : FlxEnv} {db : FlxDb} {queries : FlxQueries}
  {body : FlxBody} {visible : VisibleObjects} {r₀ : ObjectRef}
  {changes : List (Bytes × List FlxInstr)} {e : Bytes × ObjectRef}
  {touched : List (Bytes × ObjectRef)}

/-- An object of the view is added as its image. -/
theorem objectChange_eq {r : ObjectRef} (h : db.image r = some changes)
    (body : FlxBody) :
    ∃ schema, objectChange db body r
      = some (.object schema r changes) := by
  rw [objectChange, h]
  exact ⟨_, rfl⟩

theorem FlxContent.applyBody_object (c : FlxContent) (body : FlxBody)
    (schema : List FlxInstr) (r r' : ObjectRef)
    (changes : List (Bytes × List FlxInstr)) :
    c.applyBody (body ++ [.object schema r changes]) r'
      = if r' = r then some (FlxHeld.put (c.applyBody body r) changes)
        else c.applyBody body r' := by
  rw [applyBody_append]
  exact Function.update_apply _ _ _ _

theorem FlxContent.applyBody_erase (c : FlxContent) (body : FlxBody)
    (r r' : ObjectRef) :
    c.applyBody (body ++ [.erase r]) r'
      = if r' = r then none else c.applyBody body r' := by
  rw [applyBody_append]
  exact Function.update_apply _ _ _ _

/-- The objects of a bootstrap body are sent from the first on. -/
theorem FlxEnv.addObjects_spec (refs : List ObjectRef) :
    ∀ body, (∀ r ∈ refs, ∃ changes, db.image r = some changes) →
      let made := env.addObjects db body refs
      ∃ sent, refs = sent ++ made.2
        ∧ ∀ c r, FlxContent.applyBody c made.1 r
          = if r ∈ sent
            then (db.image r).map (FlxHeld.put (c.applyBody body r))
            else c.applyBody body r := by
  induction refs with
  | nil =>
    intro body _
    exact ⟨[], rfl, fun c r => by simp [addObjects]⟩
  | cons r₀ refs ih =>
    intro body himage
    obtain ⟨changes, hchanges⟩ := himage r₀ List.mem_cons_self
    obtain ⟨schema, hchange⟩ := objectChange_eq hchanges body
    simp only [addObjects, hchange, Option.elim_some]
    by_cases haccepts : env.accepts body (.object schema r₀ changes)
    · rw [if_pos haccepts]
      obtain ⟨sent, hsplit, happly⟩ :=
        ih (body ++ [.object schema r₀ changes])
          (fun r hr => himage r (List.mem_cons_of_mem _ hr))
      refine ⟨r₀ :: sent, congrArg (r₀ :: ·) hsplit, fun c r => ?_⟩
      rw [happly, applyBody_object]
      by_cases hr : r = r₀
      · subst hr
        simp only [if_pos, hchanges, Option.map_some, List.mem_cons,
          true_or, FlxHeld.put_put, ite_self]
      · simp only [hr, List.mem_cons, false_or, if_false]
    · rw [if_neg haccepts]
      exact ⟨[], rfl, fun c r => by simp⟩

/-- The removals of a bootstrap body are sent from the first on. -/
theorem FlxEnv.addRemovals_spec (refs : List ObjectRef) :
    ∀ body, let made := env.addRemovals body refs
      ∃ sent, refs = sent ++ made.2
        ∧ ∀ c r, FlxContent.applyBody c made.1 r
          = if r ∈ sent then none else c.applyBody body r := by
  induction refs with
  | nil =>
    intro body
    exact ⟨[], rfl, fun c r => by simp [addRemovals]⟩
  | cons r₀ refs ih =>
    intro body
    simp only [addRemovals]
    by_cases haccepts : env.accepts body (.erase r₀)
    · rw [if_pos haccepts]
      obtain ⟨sent, hsplit, happly⟩ := ih (body ++ [.erase r₀])
      refine ⟨r₀ :: sent, congrArg (r₀ :: ·) hsplit, fun c r => ?_⟩
      rw [happly, applyBody_erase]
      by_cases hr : r = r₀
      · simp [hr]
      · simp only [hr, List.mem_cons, false_or, if_false]
    · rw [if_neg haccepts]
      exact ⟨[], rfl, fun c r => by simp⟩

/-- The list of touched objects of an incremental body: each under its
key, none twice. -/
structure TouchedList (touched : List (Bytes × ObjectRef)) : Prop where
  key : ∀ e ∈ touched, e.1 = flxVisibleObjectKey e.2 ∧ 9 ∉ e.2.1
  nodup : (touched.map (·.2)).Nodup

theorem TouchedList.tail (h : TouchedList (e :: touched)) :
    TouchedList touched :=
  ⟨fun e' he' => h.key e' (List.mem_cons_of_mem _ he'),
    (List.nodup_cons.1 h.nodup).2⟩

theorem TouchedList.right {l l' : List (Bytes × ObjectRef)}
    (h : TouchedList (l ++ l')) : TouchedList l' := by
  refine ⟨fun e he => h.key e (List.mem_append_right _ he), ?_⟩
  have hnodup := h.nodup
  rw [List.map_append] at hnodup
  exact hnodup.of_append_right

/-- The entries of `touched_objects` are such a list. -/
theorem Keyed.touchedList (hm : Keyed m) : TouchedList m.toList := by
  constructor
  · intro e he
    exact hm e.1 e.2 (Std.ExtTreeMap.mem_toList_iff_getElem?_eq_some.1 he)
  · -- the same object twice would be the same key twice
    have hdistinct := @Std.ExtTreeMap.distinct_keys_toList _ _ _ m _
    rw [List.Nodup, List.pairwise_map]
    refine hdistinct.imp_of_mem ?_
    intro a b ha hb hne heq
    apply hne
    rw [(hm.mem_toList.1 ha).1, (hm.mem_toList.1 hb).1, heq]
    exact Std.compare_eq_iff_eq.2 rfl

instance (m : VisibleObjects) (r : ObjectRef) : Decidable (Tracks m r) :=
  inferInstanceAs (Decidable (_ = _))

/-- What a client holds of an object that was looked at: it is sent if it
is in the view, and erased if it was tracked. -/
def FlxEnv.look (env : FlxEnv) (db : FlxDb) (queries : FlxQueries)
    (visible : VisibleObjects) (c : FlxContent) (r : ObjectRef) :
    Option FlxHeld :=
  if env.isVisible db queries r then (db.image r).map (FlxHeld.put (c r))
  else if Tracks visible r then none else c r

/-- The session and the client after some touched objects were looked
at: those in the view are sent and tracked, the others are erased if they
were tracked. -/
structure Looked (env : FlxEnv) (db : FlxDb) (queries : FlxQueries)
    (body : FlxBody) (visible : VisibleObjects)
    (touched : List (Bytes × ObjectRef))
    (made : FlxBody × VisibleObjects × List (Bytes × ObjectRef))
    (looked : List (Bytes × ObjectRef)) : Prop where
  split : touched = looked ++ made.2.2
  keyed : Keyed made.2.1
  tracks : ∀ r, Tracks made.2.1 r
    ↔ if r ∈ looked.map (·.2) then env.isVisible db queries r = true
      else Tracks visible r
  applied : ∀ c r, FlxContent.applyBody c made.1 r
    = if r ∈ looked.map (·.2)
      then env.look db queries visible (c.applyBody body) r
      else c.applyBody body r

/-- The loop may stop at once. -/
theorem Looked.stop (hv : Keyed visible)
    (touched : List (Bytes × ObjectRef)) :
    Looked env db queries body visible touched (body, visible, touched)
      [] where
  split := rfl
  keyed := hv
  tracks r := by simp
  applied c r := by simp

/-- What looking at one object does, put before what the rest of the loop
does. -/
theorem Looked.cons {body1 : FlxBody} {visible1 : VisibleObjects}
    {looked : List (Bytes × ObjectRef)}
    {made : FlxBody × VisibleObjects × List (Bytes × ObjectRef)}
    (hlist : TouchedList (e :: touched))
    (hrest : Looked env db queries body1 visible1 touched made looked)
    (hone : Looked env db queries body visible [e] (body1, visible1, [])
      [e]) :
    Looked env db queries body visible (e :: touched) made
      (e :: looked) := by
  have hnotMem : e.2 ∉ looked.map (·.2) := by
    intro hmem
    have hnodup := (List.nodup_cons.1 hlist.nodup).1
    rw [hrest.split, List.map_append] at hnodup
    exact hnodup (List.mem_append_left _ hmem)
  -- another object is as the rest of the loop finds it
  have hother (r : ObjectRef) (hr : r ≠ e.2) :
      (Tracks visible1 r ↔ Tracks visible r)
        ∧ ∀ c, applyBody c body1 r = c.applyBody body r := by
    have hr' : r ∉ [e].map (·.2) := by simpa using hr
    refine ⟨(hone.tracks r).trans ?_, fun c => (hone.applied c r).trans ?_⟩
    · rw [if_neg hr']
    · rw [if_neg hr']
  have hself : e.2 ∈ [e].map (·.2) := by simp
  refine ⟨congrArg (e :: ·) hrest.split, hrest.keyed, ?_, ?_⟩
  · intro r
    rw [hrest.tracks, List.map_cons]
    by_cases hr : r = e.2
    · subst hr
      rw [if_neg hnotMem, if_pos List.mem_cons_self, hone.tracks,
        if_pos hself]
    · simp only [List.mem_cons, hr, false_or, (hother r hr).1]
  · intro c r
    rw [hrest.applied, List.map_cons]
    by_cases hr : r = e.2
    · subst hr
      rw [if_neg hnotMem, if_pos List.mem_cons_self, hone.applied,
        if_pos hself]
    · simp only [List.mem_cons, hr, false_or, look, (hother r hr).1,
        (hother r hr).2]

theorem looked_visible (hr0 : 9 ∉ r₀.1) (hv : Keyed visible)
    (hview : env.isVisible db queries r₀ = true) (schema : List FlxInstr)
    (hchanges : db.image r₀ = some changes) :
    Looked env db queries body visible [(flxVisibleObjectKey r₀, r₀)]
      (body ++ [.object schema r₀ changes],
        visible.insert (flxVisibleObjectKey r₀) r₀, [])
      [(flxVisibleObjectKey r₀, r₀)] where
  split := rfl
  keyed := hv.insert hr0
  tracks r := by
    rw [tracks_insert hv hr0]
    by_cases hr : r = r₀
    · simp [hr, hview]
    · simp [hr]
  applied c r := by
    rw [applyBody_object]
    by_cases hr : r = r₀
    · simp [hr, look, hview, hchanges]
    · simp [hr]

theorem looked_tracked (hr0 : 9 ∉ r₀.1) (hv : Keyed visible)
    (hview : env.isVisible db queries r₀ = false)
    (htracks : Tracks visible r₀) :
    Looked env db queries body visible [(flxVisibleObjectKey r₀, r₀)]
      (body ++ [.erase r₀], visible.erase (flxVisibleObjectKey r₀), [])
      [(flxVisibleObjectKey r₀, r₀)] where
  split := rfl
  keyed := hv.erase _
  tracks r := by
    rw [tracks_erase hv hr0]
    by_cases hr : r = r₀
    · simp [hr, hview]
    · simp [hr]
  applied c r := by
    rw [applyBody_erase]
    by_cases hr : r = r₀
    · simp [hr, look, hview, htracks]
    · simp [hr]

theorem looked_untracked (hv : Keyed visible)
    (hview : env.isVisible db queries r₀ = false)
    (htracks : ¬ Tracks visible r₀) :
    Looked env db queries body visible [(flxVisibleObjectKey r₀, r₀)]
      (body, visible, []) [(flxVisibleObjectKey r₀, r₀)] where
  split := rfl
  keyed := hv
  tracks r := by
    by_cases hr : r = r₀
    · simp [hr, hview, htracks]
    · simp [hr]
  applied c r := by
    by_cases hr : r = r₀
    · simp [hr, look, hview, htracks]
    · simp [hr]

theorem FlxEnv.addTouched_spec (touched : List (Bytes × ObjectRef)) :
    ∀ body visible, TouchedList touched → Keyed visible →
      ∃ looked, Looked env db queries body visible touched
        (env.addTouched db queries body visible touched) looked := by
  induction touched with
  | nil => exact fun body visible _ hv => ⟨[], Looked.stop hv []⟩
  | cons e touched ih =>
    intro body visible hlist hv
    obtain ⟨key, r₀⟩ := e
    obtain ⟨hkey, hr0⟩ := hlist.key (key, r₀) List.mem_cons_self
    simp only at hkey hr0
    subst hkey
    simp only [addTouched]
    by_cases hview : env.isVisible db queries r₀ = true
    · rw [if_pos hview]
      obtain ⟨changes, hchanges⟩ := image_of_isVisible hview
      obtain ⟨schema, hchange⟩ := objectChange_eq hchanges body
      rw [hchange, Option.elim_some]
      by_cases haccepts : env.accepts body (.object schema r₀ changes)
      · rw [if_pos haccepts]
        obtain ⟨looked, hrest⟩ := ih _ _ hlist.tail (hv.insert hr0)
        exact ⟨_, hrest.cons hlist
          (looked_visible hr0 hv hview schema hchanges)⟩
      · rw [if_neg haccepts]
        exact ⟨[], Looked.stop hv _⟩
    · rw [if_neg hview]
      have hview := Bool.eq_false_iff.2 hview
      rcases hget : visible[flxVisibleObjectKey r₀]? with _ | old
      · have hnot : ¬ Tracks visible r₀ := by
          rw [Tracks, hget]
          simp
        obtain ⟨looked, hrest⟩ := ih body visible hlist.tail hv
        exact ⟨_, hrest.cons hlist (looked_untracked hv hview hnot)⟩
      · have hold := hv.eq_of_get hr0 hget
        subst hold
        rw [Option.elim_some]
        by_cases haccepts : env.accepts body (.erase old)
        · rw [if_pos haccepts]
          obtain ⟨looked, hrest⟩ := ih _ _ hlist.tail (hv.erase _)
          exact ⟨_, hrest.cons hlist (looked_tracked hr0 hv hview hget)⟩
        · rw [if_neg haccepts]
          exact ⟨[], Looked.stop hv _⟩

end loops

end BarqSync.Flx
