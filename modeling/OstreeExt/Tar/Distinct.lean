import OstreeExt.Tar.Output
import OstreeExt.Tar.Streams

/-!
# When a stream has no path twice

The parts of an exported stream are disjoint: the root, the repository structure, the
objects, and the places of the listing.  What is added at the end is `/var/tmp`, and the
check that a commit brings its own never succeeds, because the walk names directories with a
leading `./` (`exportCommit_distinct`, `exportFinalChunk_distinct`).
-/

namespace OstreeExt.Tar

open OstreeExt Exec Objects

/-- The root of a commit has no `etc`, and no `sysroot` other than an empty directory. -/
structure PlainRoot (o : Objects) (commit : Commit) : Prop where
  files : ∀ d, o.dirtrees[commit.contents]? = some d →
    ∀ f ∈ d.files, f.1 ≠ "etc" ∧ f.1 ≠ "sysroot"
  dirs : ∀ d, o.dirtrees[commit.contents]? = some d → ∀ s ∈ d.dirs, s.1 ≠ "etc"
  sysroot : SysrootEmpty o commit

/-- The entry of `append_standard_var`. -/
def varTmpEntry : Entry :=
  { path := [.normal "var", .normal "tmp"],
    header := { entryType := .directory, uid := 0, gid := 0,
                mode := filterMode (sIfdir ||| 0o1777), size := 0 } }

-- ── Repeated paths ────────────────────────────────────────────────────────────

/-- A stream has a path twice when its checkout does. -/
theorem Traced.nodup_iff {head : List Path} {R : String → Finset Checksum} {out K : List Entry}
    (h : Traced head R out K) : (out.map (·.path)).Nodup ↔ (K.map (·.path)).Nodup := by
  have hperm : (out.filter inSysroot ++ K).Perm out := by
    rw [← h.checkout]
    exact List.filter_append_perm _ _
  rw [← (hperm.map _).nodup_iff, List.map_append, List.nodup_append]
  constructor
  · rintro ⟨_, hK, _⟩
    exact hK
  · intro hK
    refine ⟨h.nodup, hK, ?_⟩
    rintro p hp q hq rfl
    obtain ⟨e, he, rfl⟩ := List.mem_map.mp hp
    obtain ⟨e', he', heq⟩ := List.mem_map.mp hq
    have hin := (List.mem_filter.mp he).2
    rw [← h.checkout] at he'
    have hout := (List.mem_filter.mp he').2
    rw [inSysroot, heq] at hout
    rw [inSysroot] at hin
    rw [hin] at hout
    cases hout

/-- Paths of a listing of a plain root are told apart by their places. -/
theorem nodup_places {l : List (List String × Option Checksum)} (hl : (l.map (·.1)).Nodup)
    (hetc : ∀ e ∈ l, e.1.head? ≠ some "etc") :
    (l.map fun e => relPath (place e.1)).Nodup := by
  have hmap : (l.map fun e => relPath (place e.1)) = (l.map (·.1)).map fun q => relPath (place q) := by
    rw [List.map_map]
    rfl
  rw [hmap]
  refine List.Nodup.map_on (fun a ha b hb h => ?_) hl
  obtain ⟨e, he, rfl⟩ := List.mem_map.mp ha
  obtain ⟨e', he', rfl⟩ := List.mem_map.mp hb
  exact place_inj (hetc e he) (hetc e' he') (relPath_inj h)

/-- The checkout of a listing with `/var/tmp` at its end. -/
theorem nodup_checkout {l : List (List String × Option Checksum)} (hl : (l.map (·.1)).Nodup)
    (hetc : ∀ e ∈ l, e.1.head? ≠ some "etc") :
    ([Component.curDir] :: ((l.map fun e => relPath (place e.1))
        ++ [relPath ["var", "tmp"]])).Nodup ↔ ∀ x, (["var", "tmp"], x) ∉ l := by
  have hroot : [Component.curDir] ∉ (l.map fun e => relPath (place e.1)) ++
      [relPath ["var", "tmp"]] := by
    intro h
    rcases List.mem_append.mp h with h | h
    · obtain ⟨e, _, heq⟩ := List.mem_map.mp h
      cases hp : place e.1 with
      | nil => rw [hp] at heq; exact absurd heq (by simp [relPath])
      | cons a r => rw [hp] at heq; exact absurd heq (by simp [relPath])
    · exact absurd (List.mem_singleton.mp h) (by simp [relPath])
  rw [List.nodup_cons, List.nodup_append]
  constructor
  · rintro ⟨_, _, _, hdisj⟩ x hx
    exact hdisj _ (List.mem_map_of_mem hx) _ (List.mem_singleton_self _) rfl
  · intro h
    refine ⟨hroot, nodup_places hl hetc, List.nodup_singleton _, ?_⟩
    rintro p hp q hq rfl
    obtain ⟨e, he, heq⟩ := List.mem_map.mp hp
    rw [List.mem_singleton.mp hq] at heq
    have hvar := place_varTmp.mp (relPath_inj heq)
    exact h e.2 (by rw [← hvar]; exact he)

-- ── The places of a chunk ─────────────────────────────────────────────────────

/-- The names of a path. -/
def namesOf (p : Path) : List String :=
  p.filterMap fun
    | .normal s => some s
    | _ => none

theorem namesOf_relPath (ns : List String) : namesOf (.rootDir :: relPath ns) = ns := by
  rw [namesOf, List.filterMap_cons_none rfl, relPath, List.filterMap_map]
  exact List.filterMap_some

/-- The part of a listing that a chunk has, in the order of `write_chunk`. -/
def chunkPlaces (m : ChunkMapping) : List (List String × Option Checksum) :=
  m.toList.flatMap fun item => item.2.2.map fun p => (namesOf p, some item.1)

section Chunk

variable {o : Objects} {fuel : Nat} {commit : Commit} {m : ChunkMapping}

/-- A part of the initial chunk of a commit. -/
def PartOf (o : Objects) (fuel : Nat) (commit : Commit) (m : ChunkMapping) : Prop :=
  ∀ (x : Checksum) v, m[x]? = some v → (initialChunk o
    (o.occurrences fuel false [.rootDir] commit.contents)).content[x]? = some v

/-- The paths of an object in a part are all its paths. -/
theorem PartOf.paths (hm : PartOf o fuel commit m) {x : Checksum} {v : Nat × List Path}
    (hv : m[x]? = some v) :
    v = (o.fileSize x, pathsOf (o.occurrences fuel false [.rootDir] commit.contents) x) ∧
      v.2 ≠ [] := by
  have h := hm x v hv
  rw [initialChunk_content] at h
  split at h
  · exact nomatch h
  next hne =>
    have hv := Option.some.inj h
    exact ⟨hv.symm, by rw [← hv]; exact hne⟩

/-- The paths of a part are files of the listing. -/
theorem PartOf.listed (hm : PartOf o fuel commit m) {x : Checksum} {v : Nat × List Path}
    (hv : m[x]? = some v) {p : Path} :
    p ∈ v.2 ↔ ∃ q, p = .rootDir :: relPath q ∧
      (q, some x) ∈ listing o false fuel false [] commit.contents := by
  rw [(hm.paths hv).1, mem_pathsOf, ← mem_occurrences_iff]
  rfl

theorem mem_chunkPlaces (hm : PartOf o fuel commit m) {q : List String} {x : Option Checksum} :
    (q, x) ∈ chunkPlaces m ↔ ∃ y, x = some y ∧ y ∈ m ∧
      (q, x) ∈ listing o false fuel false [] commit.contents := by
  rw [chunkPlaces, List.mem_flatMap]
  constructor
  · rintro ⟨⟨y, v⟩, hv, h⟩
    obtain ⟨p, hp, heq⟩ := List.mem_map.mp h
    have hv := Std.ExtTreeMap.mem_toList_iff.mp hv
    obtain ⟨q', rfl, hq'⟩ := (hm.listed hv).mp hp
    rw [namesOf_relPath] at heq
    obtain ⟨rfl, rfl⟩ := Prod.mk.inj heq
    exact ⟨y, rfl, Std.ExtTreeMap.mem_iff_lookup.mpr ⟨v, hv⟩, hq'⟩
  · rintro ⟨y, rfl, hy, hq⟩
    obtain ⟨v, hv⟩ := Std.ExtTreeMap.mem_iff_lookup.mp hy
    refine ⟨(y, v), Std.ExtTreeMap.mem_toList_iff.mpr hv, List.mem_map.mpr
      ⟨.rootDir :: relPath q, (hm.listed hv).mpr ⟨q, rfl, hq⟩, ?_⟩⟩
    rw [namesOf_relPath]

/-- No path of a part comes twice. -/
theorem nodup_chunkPlaces (hnames : WellNamed o commit.contents) (hm : PartOf o fuel commit m) :
    ((chunkPlaces m).map (·.1)).Nodup := by
  have hpairs : (chunkPlaces m).Nodup := by
    rw [chunkPlaces, List.nodup_flatMap]
    constructor
    · rintro ⟨x, v⟩ hv
      have hv := Std.ExtTreeMap.mem_toList_iff.mp hv
      refine List.Nodup.map_on (fun p hp p' hp' heq => ?_) ?_
      · obtain ⟨q, rfl, _⟩ := (hm.listed hv).mp hp
        obtain ⟨q', rfl, _⟩ := (hm.listed hv).mp hp'
        rw [namesOf_relPath, namesOf_relPath] at heq
        rw [(Prod.mk.inj heq).1]
      · show v.2.Nodup
        rw [(hm.paths hv).1]
        refine List.Nodup.filterMap ?_ (@nodup_occurrences o fuel [] commit.contents hnames)
        rintro ⟨p, y⟩ ⟨p', y'⟩ r hr hr'
        dsimp only at hr hr'
        split at hr
        · next hy =>
          split at hr'
          · next hy' =>
            cases hr
            cases hr'
            rw [hy, hy']
          · exact nomatch hr'
        · exact nomatch hr
    · refine (List.pairwise_map.mp (Std.ExtTreeMap.nodup_keys_toList m)).imp fun {a b} hab => ?_
      rw [Function.onFun_apply, List.disjoint_left]
      intro e he he'
      obtain ⟨_, _, rfl⟩ := List.mem_map.mp he
      obtain ⟨_, _, heq⟩ := List.mem_map.mp he'
      exact hab (Option.some.inj (Prod.mk.inj heq).2).symm
  refine List.Nodup.map_on ?_ hpairs
  rintro ⟨q, x⟩ hx ⟨q', x'⟩ hx' heq
  obtain ⟨y, rfl, _, hq⟩ := (mem_chunkPlaces hm).mp hx
  obtain ⟨y', rfl, _, hq'⟩ := (mem_chunkPlaces hm).mp hx'
  obtain rfl : q = q' := heq
  rw [listing_unique hnames hq hq']

/-- The objects of a part are stored. -/
theorem PartOf.stored (hm : PartOf o fuel commit m) (hcomplete : o.Complete commit) :
    ∀ x ∈ m, x ∈ o.files := by
  intro x hx
  obtain ⟨v, hv⟩ := Std.ExtTreeMap.mem_iff_lookup.mp hx
  obtain ⟨p, hp⟩ := List.exists_mem_of_ne_nil _ (hm.paths hv).2
  obtain ⟨q, rfl, hq⟩ := (hm.listed hv).mp hp
  exact hcomplete .file x (.inr (reaches_of_mem_occurrences
    (mem_occurrences_iff.mpr ⟨q, rfl, hq⟩)))

/-- The paths of a part go outside of `sysroot`. -/
theorem PartOf.outside (hm : PartOf o fuel commit m)
    (hfile : ∀ d, o.dirtrees[commit.contents]? = some d → ∀ f ∈ d.files, f.1 ≠ "sysroot")
    (hroot : SysrootEmpty o commit) {x : Checksum} {v : Nat × List Path} (hv : m[x]? = some v)
    {p : Path} (hp : p ∈ v.2) : OutsidePath p := by
  obtain ⟨q, rfl, hq⟩ := (hm.listed hv).mp hp
  have hne : q ≠ [] := by
    obtain ⟨name, rest, rfl⟩ := listing_path hq
    simp
  exact ⟨place q, tarPath_chunkPath hne,
    place_head (listing_outside hfile ((mem_listing_root hroot).mpr hq))⟩

/-- The links of a part are at the places of its listing. -/
theorem itemLinks_paths (hm : PartOf o fuel commit m) (hfiles : ∀ x ∈ m, x ∈ o.files) :
    (m.toList.flatMap (itemLinks o)).map (·.path)
      = (chunkPlaces m).map fun e => relPath (place e.1) := by
  rw [chunkPlaces, List.map_flatMap, List.map_flatMap]
  refine List.flatMap_congr (fun it hit => ?_)
  obtain ⟨x, v⟩ := it
  have hv := Std.ExtTreeMap.mem_toList_iff.mp hit
  obtain ⟨f, hf⟩ := Std.ExtTreeMap.mem_iff_lookup.mp
    (hfiles x (Std.ExtTreeMap.mem_iff_lookup.mpr ⟨v, hv⟩))
  rw [itemLinks, hf]
  dsimp only
  rw [List.map_map, List.map_map]
  refine List.map_congr_left (fun p hp => ?_)
  obtain ⟨q, rfl, hq⟩ := (hm.listed hv).mp hp
  have hne : q ≠ [] := by
    obtain ⟨name, rest, rfl⟩ := listing_path hq
    simp
  show (linkEntry x f _).path = relPath (place (namesOf _))
  rw [linkEntry, hardlinkEntry_path, namesOf_relPath, tarPath_chunkPath hne]

end Chunk

-- ── The exports ───────────────────────────────────────────────────────────────

section Exports

variable {lib : Libostree} {tar : TarCrate} {src : Repo} {c : Checksum} {commit : Commit}
  {fuel : Nat} {rev : String}

/-- The walk of a commit with a plain root stays outside of `sysroot`. -/
theorem visits_outside (hcomplete : src.Complete commit)
    (hfile : ∀ d, src.dirtrees[commit.contents]? = some d → ∀ f ∈ d.files, f.1 ≠ "sysroot")
    (b : Bool) :
    ∀ v ∈ visits src.toObjects b fuel tarPathPrefixV0 commit.contents true, v.Outside := by
  intro v hv
  constructor
  · intro p x hp
    have hmem : (p, x) ∈ (visits src.toObjects b fuel (.curDir :: relPath (place []))
        commit.contents true).filterMap Visit.placed := List.mem_filterMap.mpr ⟨v, hv, hp⟩
    rw [visits_placed (fun ty y hy => hcomplete ty y (.inr hy))] at hmem
    obtain ⟨⟨q, y⟩, hq, heq⟩ := List.mem_map.mp hmem
    refine ⟨place q, (Prod.mk.inj heq).1.symm, place_head (listing_outside hfile hq)⟩
  · rintro p rfl heq
    obtain ⟨r, hr⟩ := visits_enter hv
    rw [hr] at heq
    exact absurd heq (by simp)

/-- The places of the walk. -/
theorem walk_paths (hcomplete : src.Complete commit) (b : Bool) :
    ((visits src.toObjects b fuel tarPathPrefixV0 commit.contents true).filterMap
        Visit.placed).map (·.1)
      = (listing src.toObjects b fuel true [] commit.contents).map
        fun e => relPath (place e.1) := by
  show ((visits src.toObjects b fuel (.curDir :: relPath (place [])) commit.contents
    true).filterMap Visit.placed).map (·.1) = _
  rw [visits_placed (fun ty x hx => hcomplete ty x (.inr hx)), List.map_map]
  rfl

/-- **`export_commit`**, if it succeeds: the objects, and the places of the walk, and then
    always `/var/tmp`. -/
theorem exportCommit_traced (hrev : src.requireRev rev = .ok c)
    (hcommit : src.commits[c]? = some commit) (hcomplete : src.Complete commit)
    (hdepth : src.DepthLt fuel commit.contents)
    (hfile : ∀ d, src.dirtrees[commit.contents]? = some d → ∀ f ∈ d.files, f.1 ≠ "sysroot")
    {es : List Entry} (h : exportCommit lib tar src fuel rev = .ok es) :
    ∃ m R w, src.dirmetas[commit.dirmeta]? = some m ∧
      forM (visits src.toObjects false fuel tarPathPrefixV0 commit.contents true)
        (Visit.run lib tar src) (headWriter lib src false c commit m) = .ok ⟨⟩ w ∧
      es = w.out ++ [varTmpEntry] ∧
      Traced (headPaths c) R es (dirEntry tarPathPrefixV0 m :: (checkouts tar src.toObjects ∅
        (visits src.toObjects false fuel tarPathPrefixV0 commit.contents true)
          ++ [varTmpEntry])) ∧
      (checkouts tar src.toObjects ∅ (visits src.toObjects false fuel tarPathPrefixV0
        commit.contents true)).map (·.path)
          = (listing src.toObjects false fuel true [] commit.contents).map
            fun e => relPath (place e.1) := by
  obtain ⟨m, hm⟩ := Std.ExtTreeMap.mem_iff_lookup.mp (hcomplete .dirMeta _ (.inl ⟨rfl, rfl⟩))
  rw [exportCommit_eq hrev hcommit hm] at h
  split at h
  · next u w' hrun =>
    obtain ⟨_, w, hwalk, hvar⟩ := bind_ok hrun
    rw [appendDirtree_eq_visits (fun ty x hx => hcomplete ty x (.inr hx)) hdepth] at hwalk
    obtain ⟨htraced, hnovar, _, hpaths⟩ := visits_traced (headPaths_ok c)
      (visits_outside hcomplete hfile false) (headWriter_traced false m) rfl hwalk
    rw [appendStandardVar, bind_of_ok (get_run _), if_neg (by rw [hnovar]; simp)] at hvar
    cases hvar
    cases h
    exact ⟨m, _, w, hm, hwalk, rfl, htraced.place (e := varTmpEntry) rfl,
      hpaths.trans (walk_paths hcomplete false)⟩
  · cases h

/-- A visit whose object is stored, and can be linked to if it was written before. -/
theorem Visit.run_ends {done : Finset Checksum} {v : Visit}
    (hfile : ∀ p f, v = .file p f → ∃ x, src.files[f.2]? = some x ∧
      (f.2 ∈ done → Relinkable tar x)) :
    Ends (fun w => w.wroteContent = done) (v.run lib tar src)
      (fun _ w' => w'.wroteContent = afterVisits .file done [v]) := by
  have hsame : ∀ us : List Visit, objectsOf .file us = [] → done = afterVisits .file done us := by
    intro us hus
    rw [afterVisits, hus]
    simp
  intro w hw
  cases v with
  | dirtree c d =>
      rw [Visit.run, appendDirtreeObj_run]
      split <;> exact ⟨⟨⟩, _, rfl, hw.trans (hsame _ rfl)⟩
  | dirmeta c m =>
      rw [Visit.run, appendDirmetaObj_run]
      split <;> exact ⟨⟨⟩, _, rfl, hw.trans (hsame _ rfl)⟩
  | enter p =>
      rw [Visit.run, noteVartmp]
      split <;> exact ⟨⟨⟩, _, rfl, hw.trans (hsame _ rfl)⟩
  | dir p m => exact ⟨⟨⟩, _, rfl, hw.trans (hsame _ rfl)⟩
  | file p f =>
      obtain ⟨x, hx, hrelink⟩ := hfile p f rfl
      have hinsert : afterVisits .file done [.file p f] = insert f.2 done := by
        ext y
        simp [afterVisits, objectsOf, Visit.object]
      rw [Visit.run, appendFile, hinsert]
      by_cases hc : f.2 ∈ w.wroteContent
      · obtain ⟨n, hn⟩ := hrelink (by rw [← hw]; exact hc)
        rw [bind_of_ok (appendContent_old hx hc)]
        refine ⟨⟨⟩, _, appendContentHardlink_run hn w, ?_⟩
        rw [hw] at hc
        exact hw.trans (Finset.insert_eq_self.mpr hc).symm
      · rw [bind_of_ok (appendContent_new hx hc)]
        refine ⟨⟨⟩, _, appendContentHardlink_run (writtenHeader_querySize x) _, ?_⟩
        rw [← hw]

/-- **`export_commit` succeeds** when every file that comes again can be linked to again. -/
theorem exportCommit_succeeds (hrev : src.requireRev rev = .ok c)
    (hcommit : src.commits[c]? = some commit) (hcomplete : src.Complete commit)
    (hdepth : src.DepthLt fuel commit.contents)
    (hrelink : RelinkableWalk tar src.toObjects ∅
      (visits src.toObjects false fuel tarPathPrefixV0 commit.contents true)) :
    ∃ es, exportCommit lib tar src fuel rev = .ok es := by
  obtain ⟨m, hm⟩ := Std.ExtTreeMap.mem_iff_lookup.mp (hcomplete .dirMeta _ (.inl ⟨rfl, rfl⟩))
  have hstored : ∀ ty x, src.Reaches commit.contents ty x → src.Has ty x :=
    fun ty x hx => hcomplete ty x (.inr hx)
  let vs := visits src.toObjects false fuel tarPathPrefixV0 commit.contents true
  have hwalk : Ends (fun w => w.wroteContent = afterVisits .file ∅ [])
      (forM vs (Visit.run lib tar src)) (fun _ w' => w'.wroteContent = afterVisits .file ∅ vs) := by
    refine Ends.loop (fun pre (w : TarWriter) => w.wroteContent = afterVisits .file ∅ pre) ?_
    intro pre v post hsplit
    rw [afterVisits_snoc]
    refine Visit.run_ends ?_
    rintro p f rfl
    have hmem : Visit.file p f ∈ vs := by
      rw [hsplit]
      simp
    have hreach := ((visits_object hstored hdepth).mp ⟨_, hmem, rfl⟩).1.reaches
    obtain ⟨x, hx⟩ := Std.ExtTreeMap.mem_iff_lookup.mp (hstored .file f.2 hreach)
    exact ⟨x, hx, fun hdone => hrelink pre p f post x hsplit hdone hx⟩
  obtain ⟨_, w, hrun, _⟩ := hwalk (headWriter lib src false c commit m)
    (by rw [afterVisits]; rfl)
  have htree : appendDirtree lib tar src fuel tarPathPrefixV0 commit.contents true
      (headWriter lib src false c commit m) = .ok ⟨⟩ w :=
    (appendDirtree_eq_visits hstored hdepth _ _ _).trans hrun
  have hvar : ∃ w', appendStandardVar w = .ok ⟨⟩ w' := by
    rw [appendStandardVar, bind_of_ok (get_run _)]
    split <;> exact ⟨_, rfl⟩
  obtain ⟨w', hvar⟩ := hvar
  refine ⟨w'.out, ?_⟩
  rw [exportCommit_eq hrev hcommit hm, bind_of_ok htree, hvar]

/-- **`export_final_chunk`** succeeds on a part of a commit: the objects, the directories of the
    walk, always `/var/tmp`, and the links of the part. -/
theorem exportFinalChunk_traced (hcommit : src.commits[c]? = some commit)
    (hcomplete : src.Complete commit) (hdepth : src.DepthLt fuel commit.contents)
    (hfile : ∀ d, src.dirtrees[commit.contents]? = some d → ∀ f ∈ d.files, f.1 ≠ "sysroot")
    (hroot : SysrootEmpty src.toObjects commit) {remainder : Chunk}
    (hm : PartOf src.toObjects fuel commit remainder.content) :
    ∃ m R w₁ w₂, src.dirmetas[commit.dirmeta]? = some m ∧
      forM (visits src.toObjects true fuel tarPathPrefixV0 commit.contents true)
        (Visit.run lib tar src) (headWriter lib src true c commit m) = .ok ⟨⟩ w₁ ∧
      writeChunk lib tar src remainder.content
        { w₁ with out := w₁.out ++ [varTmpEntry], structureOnly := false } = .ok ⟨⟩ w₂ ∧
      exportFinalChunk lib tar src fuel c remainder = .ok w₂.out ∧ w₁.wroteContent = ∅ ∧
      Traced (headPaths c) R w₂.out (dirEntry tarPathPrefixV0 m :: (checkouts tar src.toObjects ∅
        (visits src.toObjects true fuel tarPathPrefixV0 commit.contents true)
          ++ varTmpEntry :: remainder.content.toList.flatMap (itemLinks src.toObjects))) ∧
      (checkouts tar src.toObjects ∅ (visits src.toObjects true fuel tarPathPrefixV0
        commit.contents true)).map (·.path)
          = (listing src.toObjects true fuel true [] commit.contents).map
            fun e => relPath (place e.1) := by
  obtain ⟨m, hmeta⟩ := Std.ExtTreeMap.mem_iff_lookup.mp (hcomplete .dirMeta _ (.inl ⟨rfl, rfl⟩))
  let vs := visits src.toObjects true fuel tarPathPrefixV0 commit.contents true
  -- the structure can always be written
  have hwalk : Ends (Wrote [] ∅) (forM vs (Visit.run lib tar src)) (fun _ => Wrote [] ∅) := by
    refine Ends.loop (fun _ => Wrote [] ∅) (fun before v after hsplit => visit_ends ?_)
    rintro p f rfl
    have hmem : Visit.file p f ∈ vs := by
      rw [hsplit]
      simp
    exact file_not_mem_structure hmem
  obtain ⟨_, w₁, hrun₁, hw₁⟩ := hwalk (headWriter lib src true c commit m) ⟨List.nil_prefix, rfl⟩
  obtain ⟨htraced, hnovar, _, hpaths⟩ := visits_traced (headPaths_ok c)
    (visits_outside hcomplete hfile true) (headWriter_traced true m) rfl hrun₁
  let w₁' : TarWriter := { w₁ with out := w₁.out ++ [varTmpEntry], structureOnly := false }
  have hfiles : ∀ x ∈ remainder.content, x ∈ src.files := hm.stored hcomplete
  obtain ⟨w₂, hrun₂, hdone⟩ := @writeItems_traced lib tar src (headPaths c) w₁' _ (headPaths_ok c)
    remainder.content.toList (Std.ExtTreeMap.nodup_keys_toList _)
    (fun it _ => by rw [show w₁'.wroteContent = ∅ from hw₁.content]; exact Finset.notMem_empty _)
    (fun it hit => hfiles it.1 (Std.ExtTreeMap.mem_iff_lookup.mpr
      ⟨it.2, Std.ExtTreeMap.mem_toList_iff.mp hit⟩))
    (fun it hit p hp => hm.outside hfile hroot (Std.ExtTreeMap.mem_toList_iff.mp hit) hp)
    (htraced.place (e := varTmpEntry) rfl)
  refine ⟨m, w₂.recorded, w₁, w₂, hmeta, hrun₁, hrun₂, ?_, hw₁.content, ?_,
    hpaths.trans (walk_paths hcomplete true)⟩
  · have hset : setStructureOnly true {} = .ok ⟨⟩ ({ structureOnly := true } : TarWriter) := rfl
    have hvar : appendStandardVar w₁ = .ok ⟨⟩ { w₁ with out := w₁.out ++ [varTmpEntry] } := by
      rw [appendStandardVar, bind_of_ok (get_run _), if_neg (by rw [hnovar]; simp)]
      rfl
    have htree : appendDirtree lib tar src fuel tarPathPrefixV0 commit.contents true
        (headWriter lib src true c commit m) = .ok ⟨⟩ w₁ :=
      (appendDirtree_eq_visits (fun ty x hx => hcomplete ty x (.inr hx)) hdepth _ _ _).trans hrun₁
    have hhead : writeCommit lib tar src fuel c commit { structureOnly := true }
        = .ok ⟨⟩ { w₁ with out := w₁.out ++ [varTmpEntry] } := by
      rw [writeCommit_head hmeta true fuel, bind_of_ok htree, hvar]
    have hlast : setStructureOnly false { w₁ with out := w₁.out ++ [varTmpEntry] }
        = .ok ⟨⟩ w₁' := rfl
    have hchunk : writeChunk lib tar src remainder.content w₁' = .ok ⟨⟩ w₂ := hrun₂
    rw [exportFinalChunk, Repo.loadCommit, hcommit, okOr_some, bind_ok_eq, runWriter,
      bind_of_ok hset, bind_of_ok hhead, bind_of_ok hlast, hchunk]
  · rw [List.append_assoc, List.append_assoc] at hdone
    exact hdone

/-- The first names of a plain root's listing. -/
theorem listing_not_etc {o : Objects} (hroot : PlainRoot o commit) {b isRoot : Bool}
    {q : List String} {x : Option Checksum}
    (h : (q, x) ∈ listing o b fuel isRoot [] commit.contents) : q.head? ≠ some "etc" := by
  obtain ⟨d, name, hd, hname, ⟨f, hf, rfl⟩ | ⟨s, hs, rfl, _⟩⟩ := listing_head h
  · rw [hname]
    exact fun heq => (hroot.files d hd f hf).1 (Option.some.inj heq)
  · rw [hname]
    exact fun heq => hroot.dirs d hd s hs (Option.some.inj heq)

/-- **`export_commit` writes no path twice** exactly when the commit has nothing at
    `/var/tmp`. -/
theorem exportCommit_distinct (hrev : src.requireRev rev = .ok c)
    (hcommit : src.commits[c]? = some commit) (hcomplete : src.Complete commit)
    (hdepth : src.DepthLt fuel commit.contents) (hnames : WellNamed src.toObjects commit.contents)
    (hroot : PlainRoot src.toObjects commit) {es : List Entry}
    (h : exportCommit lib tar src fuel rev = .ok es) :
    (es.map (·.path)).Nodup ↔
      ∀ x, (["var", "tmp"], x) ∉ listing src.toObjects false fuel true [] commit.contents := by
  obtain ⟨m, R, w, _, _, _, htraced, hpaths⟩ := exportCommit_traced hrev hcommit hcomplete hdepth
    (fun d hd f hf => (hroot.files d hd f hf).2) h
  rw [htraced.nodup_iff, List.map_cons, List.map_append, hpaths]
  exact nodup_checkout (nodup_listing hnames) (fun e he => listing_not_etc hroot he)

/-- **`export_final_chunk` writes no path twice** exactly when the commit has no directory
    `/var/tmp`, and no file there whose object is in the remainder. -/
theorem exportFinalChunk_distinct (hcommit : src.commits[c]? = some commit)
    (hcomplete : src.Complete commit) (hdepth : src.DepthLt fuel commit.contents)
    (hnames : WellNamed src.toObjects commit.contents) (hroot : PlainRoot src.toObjects commit)
    {remainder : Chunk} (hm : PartOf src.toObjects fuel commit remainder.content) :
    ∃ es, exportFinalChunk lib tar src fuel c remainder = .ok es ∧ ((es.map (·.path)).Nodup ↔
      (["var", "tmp"], none) ∉ listing src.toObjects false fuel true [] commit.contents ∧
      ∀ x ∈ remainder.content,
        (["var", "tmp"], some x) ∉ listing src.toObjects false fuel true [] commit.contents) := by
  obtain ⟨m, R, w₁, w₂, _, _, _, hrun, _, htraced, hpaths⟩ := @exportFinalChunk_traced lib tar src c
    commit fuel hcommit hcomplete hdepth (fun d hd f hf => (hroot.files d hd f hf).2)
    hroot.sysroot remainder hm
  have hfiles : ∀ x ∈ remainder.content, x ∈ src.files := hm.stored hcomplete
  let dirs := listing src.toObjects true fuel true [] commit.contents
  let l := dirs ++ chunkPlaces remainder.content
  have hl : (l.map (·.1)).Nodup := by
    rw [List.map_append]
    refine (nodup_listing hnames).append (nodup_chunkPlaces hnames hm) ?_
    rw [List.disjoint_left]
    intro q hq hq'
    obtain ⟨⟨_, x⟩, hx, rfl⟩ := List.mem_map.mp hq
    obtain ⟨⟨_, x'⟩, hx', heq⟩ := List.mem_map.mp hq'
    obtain ⟨rfl, hx⟩ := mem_listing_structure.mp hx
    obtain ⟨y, rfl, _, hx'⟩ := (mem_chunkPlaces hm).mp hx'
    dsimp only at heq
    subst heq
    have hunique := listing_unique hnames hx ((mem_listing_root hroot.sysroot).mpr hx')
    exact nomatch hunique
  have hetc : ∀ e ∈ l, e.1.head? ≠ some "etc" := by
    rintro ⟨q, x⟩ he
    rcases List.mem_append.mp he with he | he
    · exact listing_not_etc hroot he
    · obtain ⟨_, _, _, he⟩ := (mem_chunkPlaces hm).mp he
      exact listing_not_etc hroot he
  have hmem : ∀ x, (["var", "tmp"], x) ∈ l ↔
      (x = none ∧ (["var", "tmp"], x) ∈ listing src.toObjects false fuel true [] commit.contents)
      ∨ ∃ y, x = some y ∧ y ∈ remainder.content ∧
        (["var", "tmp"], x) ∈ listing src.toObjects false fuel true [] commit.contents := by
    intro x
    rw [List.mem_append, mem_listing_structure, mem_chunkPlaces hm]
    refine or_congr Iff.rfl (exists_congr fun y => and_congr_right fun hy => and_congr_right
      fun _ => ?_)
    rw [hy]
    exact (mem_listing_root hroot.sysroot).symm
  -- the links come after `/var/tmp`, which makes no difference
  have hperm : (([Component.curDir] :: ((dirs.map fun e => relPath (place e.1)) ++
      relPath ["var", "tmp"] :: (chunkPlaces remainder.content).map
        fun e => relPath (place e.1))) : List Path).Perm
      ([Component.curDir] :: ((l.map fun e => relPath (place e.1)) ++ [relPath ["var", "tmp"]])) := by
    rw [List.map_append, List.append_assoc]
    exact ((List.perm_append_singleton _ _).symm.append_left _).cons _
  refine ⟨w₂.out, hrun, ?_⟩
  rw [htraced.nodup_iff, List.map_cons, List.map_append, List.map_cons, hpaths,
    itemLinks_paths hm hfiles]
  refine hperm.nodup_iff.trans ((nodup_checkout hl hetc).trans ?_)
  constructor
  · intro h
    exact ⟨fun hx => h none ((hmem none).mpr (.inl ⟨rfl, hx⟩)),
      fun x hx hlist => h (some x) ((hmem _).mpr (.inr ⟨x, rfl, hx, hlist⟩))⟩
  · rintro ⟨hnone, hsome⟩ x hx
    rcases (hmem x).mp hx with ⟨rfl, hx⟩ | ⟨y, rfl, hy, hx⟩
    · exact hnone hx
    · exact hsome y hy hx

/-- A sound tree with a stored root makes a complete commit. -/
theorem complete_of_soundTree {o : Objects} (hm : commit.dirmeta ∈ o.dirmetas)
    (h : SoundTree o fuel commit.contents) : o.Complete commit := by
  rintro ty x (⟨rfl, rfl⟩ | hx)
  · exact hm
  · exact h.stored ty x hx

/-- A plain root, as a check. -/
theorem plainRoot_of_lookup {o : Objects} {d : DirTree} (hd : o.dirtrees[commit.contents]? = some d)
    (hfiles : ∀ f ∈ d.files, f.1 ≠ "etc" ∧ f.1 ≠ "sysroot")
    (hdirs : ∀ s ∈ d.dirs, s.1 ≠ "etc" ∧ s.1 ≠ "sysroot") : PlainRoot o commit := by
  have hsame : ∀ d', o.dirtrees[commit.contents]? = some d' → d' = d :=
    fun d' hd' => Option.some.inj (hd'.symm.trans hd)
  refine ⟨?_, ?_, ?_⟩
  · intro d' hd'
    rw [hsame d' hd']
    exact hfiles
  · intro d' hd' s hs
    rw [hsame d' hd'] at hs
    exact (hdirs s hs).1
  · intro d' s hd' hs hn
    rw [hsame d' hd'] at hs
    exact absurd hn (hdirs s hs).2

/-- **No path is exported twice** as long as the commit keeps away from `/var/tmp`; and only
    then, since the entry for it is always added. -/
theorem exports_distinct_iff (hrev : src.requireRev rev = .ok c)
    (hcommit : src.commits[c]? = some commit) (hcomplete : src.Complete commit)
    (hdepth : src.DepthLt fuel commit.contents) (hnames : WellNamed src.toObjects commit.contents)
    (hroot : PlainRoot src.toObjects commit) :
    (∀ es, exportCommit lib tar src fuel rev = .ok es → ((es.map (·.path)).Nodup ↔
      ∀ x, (["var", "tmp"], x) ∉ listing src.toObjects false fuel true [] commit.contents)) ∧
    ∀ k remainder, Chunking.new lib src fuel rev = .ok k →
      (∀ (x : Checksum) v, remainder.content[x]? = some v → k.remainder.content[x]? = some v) →
      ∃ es, exportFinalChunk lib tar src fuel c remainder = .ok es ∧ ((es.map (·.path)).Nodup ↔
        (["var", "tmp"], none) ∉ listing src.toObjects false fuel true [] commit.contents ∧
        ∀ x ∈ remainder.content,
          (["var", "tmp"], some x) ∉ listing src.toObjects false fuel true [] commit.contents) := by
  constructor
  · intro es h
    exact exportCommit_distinct hrev hcommit hcomplete hdepth hnames hroot h
  · intro k remainder hk hsub
    obtain ⟨n, hnew⟩ := chunkingNew_eq lib hrev hcommit hcomplete hdepth
    obtain rfl := Except.ok.inj (hk.symm.trans hnew)
    exact exportFinalChunk_distinct hcommit hcomplete hdepth hnames hroot hsub

end Exports

theorem sampleTree_sound : SoundTree sampleRepo.toObjects 2 sampleCommit.contents := by
  have hmeta : sampleMetaSum ∈ sampleRepo.dirmetas :=
    Std.ExtTreeMap.mem_iff_lookup.mpr ⟨_, lookup_sampleMeta⟩
  refine SoundTree.node lookup_sampleTree (by rw [UniqueNames]; decide) ?_ ?_
  · intro f hf
    rcases List.mem_cons.mp hf with rfl | hf
    · exact Std.ExtTreeMap.mem_iff_lookup.mpr ⟨_, lookup_sampleLink⟩
    · rw [List.mem_singleton.mp hf]
      exact Std.ExtTreeMap.mem_iff_lookup.mpr ⟨_, lookup_sampleMotd⟩
  · intro s hs
    rw [List.mem_singleton.mp hs]
    exact ⟨hmeta, SoundTree.node lookup_emptyTree (by rw [UniqueNames]; decide) nofun nofun⟩

theorem sampleCommit_plainRoot : PlainRoot sampleRepo.toObjects sampleCommit :=
  plainRoot_of_lookup lookup_sampleTree (by decide) (by decide)

theorem sample_objects_stored : sampleRepo.Complete sampleCommit :=
  complete_of_soundTree (Std.ExtTreeMap.mem_iff_lookup.mpr ⟨_, lookup_sampleMeta⟩) sampleTree_sound

theorem sampleCommit_rev : sampleRepo.requireRev sampleCommitSum = .ok sampleCommitSum :=
  if_pos isSha256_sampleCommitSum

/-- The small commit can be exported. -/
theorem sampleCommit_exported : ∃ es, exportCommit sampleTables.lib sampleTar sampleRepo 2
    sampleCommitSum = .ok es :=
  exportCommit_succeeds sampleCommit_rev lookup_sampleCommit sample_objects_stored
    sampleTree_sound.depth
    ((relinkable_iff_symlinksOnce sample_objects_stored _).mpr (.inr sampleCommit_symlinksOnce))

/-- A small commit without `/var`. -/
theorem sampleCommit_distinct : ∃ es, exportCommit sampleTables.lib sampleTar sampleRepo 2
    sampleCommitSum = .ok es ∧ (es.map (·.path)).Nodup := by
  obtain ⟨es, hes⟩ := sampleCommit_exported
  have hdistinct := @exports_distinct_iff sampleTables.lib sampleTar _ _ _ _ _ sampleCommit_rev
    lookup_sampleCommit sample_objects_stored sampleTree_sound.depth sampleTree_sound.names
    sampleCommit_plainRoot
  refine ⟨es, hes, (hdistinct.1 es hes).mpr (fun x hx => ?_)⟩
  obtain ⟨d, name, hd, hname, hentry⟩ := listing_head hx
  obtain rfl := Option.some.inj (lookup_sampleTree.symm.trans hd)
  obtain rfl := Option.some.inj hname
  rcases hentry with ⟨f, hf, hvar⟩ | ⟨s, hs, hvar, _⟩
  · exact absurd hvar ((by decide : ∀ f ∈ sampleTree.files, f.1 ≠ "var") f hf)
  · exact absurd hvar ((by decide : ∀ s ∈ sampleTree.dirs, s.1 ≠ "var") s hs)

-- ── A commit with a `/var/tmp` ────────────────────────────────────────────────

def varTree : DirTree := { files := [], dirs := [("tmp", emptyTreeSum, sampleMetaSum)] }

def varTreeSum : Checksum := "3c55f69b95f17acec0a0daa9f9879d68c12213908d933159e8b12bf37484364d"

/-- A root directory with an empty `/var/tmp`. -/
def varRoot : DirTree := { files := [], dirs := [("var", varTreeSum, sampleMetaSum)] }

def varRootSum : Checksum := "82ebb3c38ccc1a35f1f32a8ad1755d0a7cf11120cea41dfb8099bcfd00776b2b"

def varCommit : Commit := { contents := varRootSum, dirmeta := sampleMetaSum }

def varCommitSum : Checksum := "b1b9563cd01d42dd7aeca9358b8a3054ce91eb40fdfed4bd16079bbdb0c6ec19"

def varTreeBytes : Bytes :=
  cstr "tmp" ++ csumBytes emptyTreeSum ++ csumBytes sampleMetaSum ++ [36, 4] ++ [70, 0]

def varRootBytes : Bytes :=
  cstr "var" ++ csumBytes varTreeSum ++ csumBytes sampleMetaSum ++ [36, 4] ++ [70, 0]

def varTables : LibTables where
  sums := [([0], emptyTreeSum), (sampleMetaBytes, sampleMetaSum), (varTreeBytes, varTreeSum),
    (varRootBytes, varRootSum), (plainCommitBytes varCommit, varCommitSum)]
  commits := [(varCommit, plainCommitBytes varCommit)]
  dirtrees := [(emptyTree, [0]), (varTree, varTreeBytes), (varRoot, varRootBytes)]
  dirmetas := [(sampleMeta, sampleMetaBytes)]
  sums_isSha256 := by decide +kernel
  files_isSha256 := by decide

def varRepo : Repo where
  commits := (∅ : Std.ExtTreeMap Checksum Commit).insert varCommitSum varCommit
  dirtrees := (((∅ : Std.ExtTreeMap Checksum DirTree).insert emptyTreeSum emptyTree).insert
    varTreeSum varTree).insert varRootSum varRoot
  dirmetas := (∅ : Std.ExtTreeMap Checksum DirMeta).insert sampleMetaSum sampleMeta

theorem lookup_varRoot : varRepo.dirtrees[varCommit.contents]? = some varRoot :=
  Std.ExtTreeMap.getElem?_insert_self

theorem lookup_varTree : varRepo.dirtrees[varTreeSum]? = some varTree := by
  simp only [varRepo]
  rw [Std.ExtTreeMap.lookup_insert, if_neg (by decide), Std.ExtTreeMap.lookup_insert, if_pos rfl]

theorem lookup_varEmpty : varRepo.dirtrees[emptyTreeSum]? = some emptyTree := by
  simp only [varRepo]
  rw [Std.ExtTreeMap.lookup_insert, if_neg (by decide), Std.ExtTreeMap.lookup_insert,
    if_neg (by decide), Std.ExtTreeMap.lookup_insert, if_pos rfl]

theorem varMeta_mem : sampleMetaSum ∈ varRepo.dirmetas :=
  Std.ExtTreeMap.mem_iff_lookup.mpr ⟨sampleMeta, Std.ExtTreeMap.getElem?_insert_self⟩

theorem varRoot_sound : SoundTree varRepo.toObjects 3 varCommit.contents := by
  refine SoundTree.node lookup_varRoot (by rw [UniqueNames]; decide) nofun (fun s hs => ?_)
  rw [List.mem_singleton.mp hs]
  refine ⟨varMeta_mem,
    SoundTree.node lookup_varTree (by rw [UniqueNames]; decide) nofun (fun s hs => ?_)⟩
  rw [List.mem_singleton.mp hs]
  exact ⟨varMeta_mem, SoundTree.node lookup_varEmpty (by rw [UniqueNames]; decide) nofun nofun⟩

theorem varTmp_listed : (["var", "tmp"], none) ∈
    listing varRepo.toObjects false 3 true [] varCommit.contents := by
  refine mem_listing_succ.mpr ⟨varRoot, lookup_varRoot, .inr ⟨_, List.mem_singleton_self _,
    by decide, .inr (mem_listing_succ.mpr ⟨varTree, lookup_varTree, .inr ⟨_,
      List.mem_singleton_self _, by decide, .inl ⟨rfl, rfl⟩⟩⟩)⟩⟩

/-- **Both exports write `/var/tmp` twice** for a commit that has one. -/
theorem varCommit_not_distinct : PlainRoot varRepo.toObjects varCommit ∧
    (∃ es, exportCommit varTables.lib sampleTar varRepo 3 varCommitSum = .ok es ∧
      ¬ (es.map (·.path)).Nodup) ∧
    ∃ k es, Chunking.new varTables.lib varRepo 3 varCommitSum = .ok k ∧
      exportFinalChunk varTables.lib sampleTar varRepo 3 varCommitSum k.remainder = .ok es ∧
      ¬ (es.map (·.path)).Nodup := by
  have hcomplete : varRepo.Complete varCommit := complete_of_soundTree varMeta_mem varRoot_sound
  have hroot : PlainRoot varRepo.toObjects varCommit :=
    plainRoot_of_lookup lookup_varRoot (by decide) (by decide)
  have hcommit : varRepo.commits[varCommitSum]? = some varCommit :=
    Std.ExtTreeMap.getElem?_insert_self
  have honce : SymlinksOnce varRepo.toObjects 3 varCommit := fun x _ _ _ _ hx =>
    nomatch (Std.ExtTreeMap.lookup_empty x).symm.trans hx
  have hrev : varRepo.requireRev varCommitSum = .ok varCommitSum :=
    if_pos (varTables.sums_isSha256 (plainCommitBytes varCommit, varCommitSum)
      (by simp [varTables]))
  refine ⟨hroot, ?_, ?_⟩
  · obtain ⟨es, hes⟩ := @exportCommit_succeeds varTables.lib sampleTar _ _ _ _ _ hrev hcommit
      hcomplete varRoot_sound.depth
      ((relinkable_iff_symlinksOnce hcomplete _).mpr (.inr honce))
    exact ⟨es, hes, fun h => (exportCommit_distinct hrev hcommit hcomplete varRoot_sound.depth
      varRoot_sound.names hroot hes).mp h _ varTmp_listed⟩
  · obtain ⟨n, hnew⟩ := chunkingNew_eq varTables.lib hrev hcommit hcomplete varRoot_sound.depth
    obtain ⟨es, hes, hdistinct⟩ := @exportFinalChunk_distinct varTables.lib sampleTar _ _ _ _ hcommit
      hcomplete varRoot_sound.depth varRoot_sound.names hroot _ (fun _ _ h => h)
    exact ⟨_, es, hnew, hes, fun h => (hdistinct.mp h).1 varTmp_listed⟩

end OstreeExt.Tar
