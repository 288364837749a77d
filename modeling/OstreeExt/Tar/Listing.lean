import OstreeExt.Tar.Chunks

/-!
# The listing of a commit

A commit as the list of its paths: each file with its object, each directory before what it
holds.  The walk of the writer puts every member of the listing at its place in the checkout,
and so do the paths of a chunk; `usr/etc` becomes `etc` on both ways (`visits_placed`,
`mem_occurrences_iff`).  In a tree without repeated names no path is listed twice.
-/

namespace OstreeExt.Tar

open OstreeExt Exec Objects

/-- The paths of a tree in the order of the walk, with the object of a file and `none` for a
    directory; the directories alone when only the structure is written. -/
def listing (o : Objects) (structureOnly : Bool) : Nat → Bool → List String → Checksum →
    List (List String × Option Checksum)
  | 0, _, _, _ => []
  | n + 1, isRoot, ns, c =>
      match o.dirtrees[c]? with
      | none => []
      | some d =>
          (if structureOnly then [] else d.files.map fun f => (ns ++ [f.1], some f.2)) ++
            d.dirs.flatMap fun s =>
              if isRoot ∧ s.1 = "sysroot" then []
              else (ns ++ [s.1], none) :: listing o structureOnly n false (ns ++ [s.1]) s.2.1

/-- No name stands for two things in a directory. -/
def UniqueNames (d : DirTree) : Prop := (d.files.map (·.1) ++ d.dirs.map (·.1)).Nodup

/-- No directory of a tree has a repeated name. -/
def WellNamed (o : Objects) (c : Checksum) : Prop :=
  ∀ t d, o.Reaches c .dirTree t → o.dirtrees[t]? = some d → UniqueNames d

section Listing

variable {o : Objects} {b : Bool}

/-- The members of a listing, one level down. -/
theorem mem_listing_succ {n : Nat} {isRoot : Bool} {ns q : List String} {c : Checksum}
    {x : Option Checksum} :
    (q, x) ∈ listing o b (n + 1) isRoot ns c ↔ ∃ d, o.dirtrees[c]? = some d ∧
      ((b = false ∧ ∃ f ∈ d.files, q = ns ++ [f.1] ∧ x = some f.2) ∨
       ∃ s ∈ d.dirs, ¬ (isRoot = true ∧ s.1 = "sysroot") ∧
         ((q = ns ++ [s.1] ∧ x = none) ∨ (q, x) ∈ listing o b n false (ns ++ [s.1]) s.2.1)) := by
  have hdir : ∀ s : String × Checksum × Checksum,
      (q, x) ∈ (if isRoot = true ∧ s.1 = "sysroot" then []
        else (ns ++ [s.1], none) :: listing o b n false (ns ++ [s.1]) s.2.1) ↔
      ¬ (isRoot = true ∧ s.1 = "sysroot") ∧
        ((q = ns ++ [s.1] ∧ x = none) ∨ (q, x) ∈ listing o b n false (ns ++ [s.1]) s.2.1) := by
    intro s
    by_cases hskip : isRoot = true ∧ s.1 = "sysroot"
    · simp [hskip]
    · rw [if_neg hskip, List.mem_cons, Prod.mk.injEq]
      exact (and_iff_right hskip).symm
  have hfile : ∀ d : DirTree,
      (q, x) ∈ (if b then [] else d.files.map fun f => (ns ++ [f.1], some f.2)) ↔
      b = false ∧ ∃ f ∈ d.files, q = ns ++ [f.1] ∧ x = some f.2 := by
    intro d
    cases b with
    | true => simp
    | false => simp [eq_comm]
  rw [listing]
  cases hd : o.dirtrees[c]? with
  | none => simp
  | some d => simp only [List.mem_append, List.mem_flatMap, hfile, hdir, Option.some.injEq,
      exists_eq_left']

/-- Listed paths continue the path of the tree by at least one name. -/
theorem listing_path {n : Nat} {isRoot : Bool} {ns q : List String} {c : Checksum}
    {x : Option Checksum} (h : (q, x) ∈ listing o b n isRoot ns c) :
    ∃ name rest, q = ns ++ name :: rest := by
  induction n generalizing isRoot ns c with
  | zero => exact nomatch h
  | succ n ih =>
      obtain ⟨d, _, ⟨_, f, _, rfl, _⟩ | ⟨s, _, _, ⟨rfl, _⟩ | h⟩⟩ := mem_listing_succ.mp h
      · exact ⟨f.1, [], rfl⟩
      · exact ⟨s.1, [], rfl⟩
      · obtain ⟨name, rest, rfl⟩ := ih h
        exact ⟨s.1, name :: rest, by simp⟩

/-- A listed path of a subdirectory starts with its name. -/
theorem listing_sub_path {n : Nat} {ns q : List String} {s : String × Checksum × Checksum}
    (h : q ∈ ((ns ++ [s.1], none) :: listing o b n false (ns ++ [s.1]) s.2.1).map (·.1)) :
    ∃ rest, q = ns ++ s.1 :: rest := by
  rcases List.mem_cons.mp h with rfl | h
  · exact ⟨[], rfl⟩
  · obtain ⟨⟨q', x⟩, hq, rfl⟩ := List.mem_map.mp h
    obtain ⟨name, rest, rfl⟩ := listing_path hq
    exact ⟨name :: rest, by simp⟩

/-- **No path is listed twice.** -/
theorem nodup_listing {n : Nat} {isRoot : Bool} {ns : List String} {c : Checksum}
    (hnames : WellNamed o c) : ((listing o b n isRoot ns c).map (·.1)).Nodup := by
  induction n generalizing isRoot ns c with
  | zero => exact List.nodup_nil
  | succ n ih =>
      rw [listing]
      cases hd : o.dirtrees[c]? with
      | none => exact List.nodup_nil
      | some d =>
          obtain ⟨hfiles, hdirs, hdisj⟩ := List.nodup_append.mp (hnames c d (.self c) hd)
          dsimp only
          rw [List.map_append, List.map_flatMap]
          refine List.Nodup.append ?_ ?_ ?_
          · split
            · exact List.nodup_nil
            have hinj : Function.Injective (fun name : String => ns ++ [name]) := by
              intro a b h
              simpa using h
            have hmap := hfiles.map hinj
            rw [List.map_map] at hmap ⊢
            exact hmap
          · refine List.nodup_flatMap.mpr ⟨fun s hs => ?_, ?_⟩
            · split
              · exact List.nodup_nil
              · refine List.nodup_cons.mpr ⟨?_, ih (fun t d' ht hd' =>
                  hnames t d' (.sub hd hs ht) hd')⟩
                intro h
                obtain ⟨⟨q, x⟩, hq, hqe⟩ := List.mem_map.mp h
                obtain ⟨name, rest, rfl⟩ := listing_path hq
                exact absurd hqe (by simp)
            · refine (List.pairwise_map.mp hdirs).imp fun {s t} hst => ?_
              rw [Function.onFun_apply, List.disjoint_left]
              intro q hq hq'
              -- paths below different names differ
              split at hq
              · exact nomatch hq
              split at hq'
              · exact nomatch hq'
              obtain ⟨rest, rfl⟩ := listing_sub_path hq
              obtain ⟨rest', heq⟩ := listing_sub_path hq'
              exact hst (List.cons.inj (List.append_cancel_left heq)).1
          · rw [List.disjoint_left]
            intro q hq hq'
            split at hq
            · exact nomatch hq
            rw [List.map_map] at hq
            obtain ⟨f, hf, rfl⟩ := List.mem_map.mp hq
            obtain ⟨s, hs, hq'⟩ := List.mem_flatMap.mp hq'
            split at hq'
            · exact nomatch hq'
            obtain ⟨rest, heq⟩ := listing_sub_path hq'
            have hname : f.1 = s.1 := (List.cons.inj (List.append_cancel_left heq)).1
            exact hdisj f.1 (List.mem_map_of_mem hf) s.1 (List.mem_map_of_mem hs) hname

/-- A path stands for one thing. -/
theorem listing_unique {n : Nat} {isRoot : Bool} {ns q : List String} {c : Checksum}
    {x y : Option Checksum} (hnames : WellNamed o c) (hx : (q, x) ∈ listing o b n isRoot ns c)
    (hy : (q, y) ∈ listing o b n isRoot ns c) : x = y := by
  have h := List.inj_on_of_nodup_map (nodup_listing hnames) hx hy rfl
  exact (Prod.mk.inj h).2

/-- The structure is the directories of the listing. -/
theorem mem_listing_structure {n : Nat} {isRoot : Bool} {ns q : List String} {c : Checksum}
    {x : Option Checksum} : (q, x) ∈ listing o true n isRoot ns c ↔
      x = none ∧ (q, x) ∈ listing o false n isRoot ns c := by
  induction n generalizing isRoot ns c with
  | zero =>
      constructor
      · exact nofun
      · rintro ⟨_, h⟩
        exact nomatch h
  | succ n ih =>
      rw [mem_listing_succ, mem_listing_succ]
      constructor
      · rintro ⟨d, hd, ⟨hb, _⟩ | ⟨s, hs, hskip, h | h⟩⟩
        · exact nomatch hb
        · exact ⟨h.2, d, hd, .inr ⟨s, hs, hskip, .inl h⟩⟩
        · obtain ⟨hx, h⟩ := ih.mp h
          exact ⟨hx, d, hd, .inr ⟨s, hs, hskip, .inr h⟩⟩
      · rintro ⟨rfl, d, hd, ⟨_, f, _, _, hx⟩ | ⟨s, hs, hskip, h | h⟩⟩
        · exact nomatch hx
        · exact ⟨d, hd, .inr ⟨s, hs, hskip, .inl h⟩⟩
        · exact ⟨d, hd, .inr ⟨s, hs, hskip, .inr (ih.mpr ⟨rfl, h⟩)⟩⟩

/-- A tree of fewer than `n` levels that is stored completely and has no repeated names. -/
structure SoundTree (o : Objects) (n : Nat) (c : Checksum) : Prop where
  stored : ∀ ty x, o.Reaches c ty x → o.Has ty x
  depth : o.DepthLt n c
  names : WellNamed o c

/-- A directory is sound when what it holds is. -/
theorem SoundTree.node {n : Nat} {c : Checksum} {d : DirTree} (hd : o.dirtrees[c]? = some d)
    (hnames : UniqueNames d) (hfiles : ∀ f ∈ d.files, f.2 ∈ o.files)
    (hdirs : ∀ s ∈ d.dirs, s.2.2 ∈ o.dirmetas ∧ SoundTree o n s.2.1) : SoundTree o (n + 1) c := by
  have hsame : ∀ d', o.dirtrees[c]? = some d' → d' = d :=
    fun d' hd' => Option.some.inj (hd'.symm.trans hd)
  refine ⟨fun ty x hx => ?_, fun d' hd' s hs => ?_, fun t d' ht hd' => ?_⟩
  · rcases reaches_iff.mp hx with ⟨rfl, rfl⟩ | ⟨d', hd', ⟨rfl, f, hf, rfl⟩ | ⟨s, hs, hx⟩⟩
    · exact Std.ExtTreeMap.mem_iff_lookup.mpr ⟨d, hd⟩
    · rw [hsame d' hd'] at hf
      exact hfiles f hf
    · rw [hsame d' hd'] at hs
      rcases hx with ⟨rfl, rfl⟩ | hx
      · exact (hdirs s hs).1
      · exact (hdirs s hs).2.stored ty x hx
  · rw [hsame d' hd'] at hs
    exact (hdirs s hs).2.depth
  · rcases reaches_iff.mp ht with ⟨_, rfl⟩ | ⟨d'', hd'', ⟨hty, _⟩ | ⟨s, hs, ⟨hty, _⟩ | ht⟩⟩
    · rw [hsame d' hd']
      exact hnames
    · exact nomatch hty
    · exact nomatch hty
    · rw [hsame d'' hd''] at hs
      exact (hdirs s hs).2.names t d' ht hd'

end Listing

-- ── Places in the checkout ────────────────────────────────────────────────────

/-- Where a path of the commit goes in the checkout: `usr/etc` is `etc`. -/
def place (ns : List String) : List String :=
  match stripPrefix ["usr", "etc"] ns with
  | some r => "etc" :: r
  | none => ns

/-- A relative path. -/
def relPath (ns : List String) : Path := ns.map Component.normal

theorem relPath_inj {a b : List String} (h : relPath a = relPath b) : a = b :=
  List.map_injective_iff.mpr (fun _ _ h => Component.normal.inj h) h

theorem stripPrefix_relPath (p ns : List String) :
    stripPrefix (relPath p) (relPath ns) = (stripPrefix p ns).map relPath := by
  induction p generalizing ns with
  | nil => rfl
  | cons a p ih =>
      cases ns with
      | nil => rfl
      | cons b ns =>
          show stripPrefix (.normal a :: relPath p) (.normal b :: relPath ns) = _
          rw [stripPrefix, stripPrefix]
          by_cases hab : a = b
          · rw [if_pos hab, if_pos (congrArg Component.normal hab), ih]
          · rw [if_neg hab, if_neg (fun h => hab (Component.normal.inj h))]
            rfl

theorem mapPathV1_relPath (ns : List String) : mapPathV1 (relPath ns) = relPath (place ns) := by
  have hstrip : stripPrefix [.normal "usr", .normal "etc"] (relPath ns)
      = (stripPrefix ["usr", "etc"] ns).map relPath := stripPrefix_relPath ["usr", "etc"] ns
  rw [mapPathV1, hstrip, place]
  cases stripPrefix ["usr", "etc"] ns with
  | none => rfl
  | some r => rfl

theorem mapPath_relPath (ns : List String) :
    mapPath (.curDir :: relPath ns) = .curDir :: relPath (place ns) := by
  have hstrip : stripPrefix [.curDir, .normal "usr", .normal "etc"] (.curDir :: relPath ns)
      = (stripPrefix ["usr", "etc"] ns).map relPath := by
    rw [stripPrefix, if_pos rfl]
    exact stripPrefix_relPath ["usr", "etc"] ns
  rw [mapPath, hstrip, place]
  cases stripPrefix ["usr", "etc"] ns with
  | none => rfl
  | some r => rfl

/-- The place of an entry of a directory, from the place of the directory. -/
theorem place_snoc (ns : List String) (name : String) :
    place (place ns ++ [name]) = place (ns ++ [name]) := by
  unfold place
  cases hs : stripPrefix ["usr", "etc"] ns with
  | none => rfl
  | some r =>
      obtain rfl := stripPrefix_eq_some.mp hs
      rw [List.append_assoc, stripPrefix_append]
      rfl

/-- The walk keeps directories at their places. -/
theorem mapPath_join (ns : List String) (name : String) :
    mapPath (Path.join (.curDir :: relPath (place ns)) name)
      = .curDir :: relPath (place (ns ++ [name])) := by
  have hjoin : Path.join (.curDir :: relPath (place ns)) name
      = .curDir :: relPath (place ns ++ [name]) := by
    show _ = Component.curDir :: (place ns ++ [name]).map Component.normal
    rw [List.map_append]
    rfl
  rw [hjoin, mapPath_relPath, place_snoc]

theorem tarPath_relPath {ns : List String} (hns : ns ≠ []) : tarPath (relPath ns) = relPath ns := by
  have hall : (relPath ns).filter (· ≠ .curDir) = relPath ns := by
    refine List.filter_eq_self.mpr (fun c hc => ?_)
    obtain ⟨name, _, rfl⟩ := List.mem_map.mp hc
    rfl
  rw [tarPath, hall]
  exact if_neg (fun h => hns (List.map_eq_nil_iff.mp h))

theorem tarPath_curDir {ns : List String} (hns : ns ≠ []) :
    tarPath (.curDir :: relPath ns) = relPath ns := by
  show tarPath (relPath ns) = relPath ns
  exact tarPath_relPath hns

theorem place_ne_nil {ns : List String} (hns : ns ≠ []) : place ns ≠ [] := by
  unfold place
  split
  · exact List.cons_ne_nil _ _
  · exact hns

/-- A path of a chunk goes to its place. -/
theorem tarPath_chunkPath {ns : List String} (hns : ns ≠ []) :
    tarPath (pathForTarV1 (.rootDir :: relPath ns)) = relPath (place ns) := by
  have hstrip : stripPrefix [Component.rootDir] (.rootDir :: relPath ns) = some (relPath ns) :=
    stripPrefix_append [Component.rootDir] (relPath ns)
  rw [pathForTarV1, hstrip, Option.getD_some, mapPathV1_relPath, tarPath_relPath (place_ne_nil hns)]

/-- A place has at most two origins. -/
theorem place_eq {ns q : List String} (h : place ns = q) :
    ns = q ∨ ∃ r, q = "etc" :: r ∧ ns = "usr" :: "etc" :: r := by
  unfold place at h
  split at h
  · next r hr =>
      exact .inr ⟨r, h.symm, stripPrefix_eq_some.mp hr⟩
  · exact .inl h

/-- Without an `etc` at the root, places tell paths apart. -/
theorem place_inj {a b : List String} (ha : a.head? ≠ some "etc") (hb : b.head? ≠ some "etc")
    (h : place a = place b) : a = b := by
  rcases place_eq h with rfl | ⟨r, hr, rfl⟩
  · rcases place_eq (rfl : place b = place b) with hb' | ⟨r, hr, _⟩
    · exact hb'.symm
    · rw [hr] at ha
      exact absurd rfl ha
  · rcases place_eq hr with rfl | ⟨r', hr', rfl⟩
    · exact absurd rfl hb
    · rw [(List.cons.inj hr').2]

/-- The place of a path outside of `sysroot` is outside. -/
theorem place_head {ns : List String} (h : ns.head? ≠ some "sysroot") :
    (place ns).head? ≠ some "sysroot" := by
  unfold place
  split
  · exact fun heq => absurd (Option.some.inj heq) (by decide)
  · exact h

/-- `/var/tmp` is its own place, and nothing else's. -/
theorem place_varTmp {ns : List String} : place ns = ["var", "tmp"] ↔ ns = ["var", "tmp"] := by
  constructor
  · intro h
    rcases place_eq h with rfl | ⟨r, hr, _⟩
    · rfl
    · exact absurd (List.cons.inj hr).1 (by decide)
  · rintro rfl
    rfl

-- ── The walk and the listing ──────────────────────────────────────────────────

/-- Where a visit puts something in the checkout. -/
def Visit.placed : Visit → Option (Path × Option Checksum)
  | .dir p _ => some (tarPath p, none)
  | .file p f => some (tarPath (mapPath (p.join f.1)), some f.2)
  | .dirtree _ _ => none
  | .dirmeta _ _ => none
  | .enter _ => none

/-- The place of a member of the listing. -/
def placedAt (e : List String × Option Checksum) : Path × Option Checksum :=
  (relPath (place e.1), e.2)

section Walk

variable {o : Objects}

/-- **The walk puts the listing into the checkout**, in order. -/
theorem visits_placed {b isRoot : Bool} {n : Nat} {ns : List String} {c : Checksum}
    (hstored : ∀ ty x, o.Reaches c ty x → o.Has ty x) :
    (visits o b n (.curDir :: relPath (place ns)) c isRoot).filterMap Visit.placed
      = (listing o b n isRoot ns c).map placedAt := by
  induction n generalizing isRoot ns c with
  | zero => rfl
  | succ n ih =>
      obtain ⟨d, hd⟩ := Std.ExtTreeMap.mem_iff_lookup.mp (hstored .dirTree c (.self c))
      have hplace : ∀ name : String,
          tarPath (mapPath (Path.join (.curDir :: relPath (place ns)) name))
            = relPath (place (ns ++ [name])) := by
        intro name
        rw [mapPath_join, tarPath_curDir (place_ne_nil (by simp))]
      have hfiles : (fileVisits b (.curDir :: relPath (place ns)) d).filterMap Visit.placed
          = (if b then [] else d.files.map fun f => (ns ++ [f.1], some f.2)).map placedAt := by
        cases b with
        | true => rfl
        | false =>
            show (d.files.map _).filterMap _ = (d.files.map _).map _
            rw [List.filterMap_map, List.map_map, ← List.filterMap_eq_map]
            refine List.filterMap_congr (fun f _ => ?_)
            show some (_, _) = some (_, _)
            rw [hplace]
      have hsub : ∀ s ∈ d.dirs, (dirVisits o isRoot (.curDir :: relPath (place ns)) s
            (visits o b n (mapPath (Path.join (.curDir :: relPath (place ns)) s.1)) s.2.1
              false)).filterMap Visit.placed
          = (if isRoot = true ∧ s.1 = "sysroot" then []
              else (ns ++ [s.1], none) :: listing o b n false (ns ++ [s.1]) s.2.1).map placedAt := by
        intro s hs
        obtain ⟨m, hm⟩ := Std.ExtTreeMap.mem_iff_lookup.mp (hstored .dirMeta _ (.dirmeta hd hs))
        have hrec := @ih false (ns ++ [s.1]) s.2.1 (fun ty x hx => hstored ty x (.sub hd hs hx))
        rw [dirVisits, hm]
        dsimp only
        rw [List.filterMap_cons_none rfl]
        by_cases hskip : isRoot = true ∧ s.1 = "sysroot"
        · rw [if_pos hskip, if_pos hskip]
          rfl
        · rw [if_neg hskip, if_neg hskip, mapPath_join]
          show (tarPath (.curDir :: _), none) :: List.filterMap Visit.placed _ = _
          rw [tarPath_curDir (place_ne_nil (by simp)), hrec]
          rfl
      rw [visits, listing, hd]
      dsimp only
      rw [List.filterMap_cons_none rfl, List.filterMap_append, List.filterMap_cons_none rfl,
        List.filterMap_flatMap, List.map_append, List.map_flatMap, hfiles]
      congr 1
      exact List.flatMap_congr hsub

theorem join_relPath (ns : List String) (name : String) :
    Path.join (.rootDir :: relPath ns) name = .rootDir :: relPath (ns ++ [name]) := by
  show _ = Component.rootDir :: (ns ++ [name]).map Component.normal
  rw [List.map_append]
  rfl

/-- A file of a listing as an occurrence of its object. -/
def occurrenceOf (e : List String × Option Checksum) : Option (Path × Checksum) :=
  e.2.map fun x => (.rootDir :: relPath e.1, x)

/-- **The files of a listing are the occurrences that a chunking starts from.** -/
theorem occurrences_eq {n : Nat} {ns : List String} {c : Checksum} :
    o.occurrences n false (.rootDir :: relPath ns) c
      = (listing o false n false ns c).filterMap occurrenceOf := by
  induction n generalizing ns c with
  | zero => rfl
  | succ n ih =>
      rw [occurrences, listing]
      cases hd : o.dirtrees[c]? with
      | none => rfl
      | some d =>
          dsimp only
          rw [List.filterMap_append, List.filterMap_flatMap]
          congr 1
          · show _ = (d.files.map _).filterMap _
            rw [List.filterMap_map, ← List.filterMap_eq_map]
            refine List.filterMap_congr (fun f _ => ?_)
            show some (_, _) = some (_, _)
            rw [join_relPath]
          · refine List.flatMap_congr (fun s _ => ?_)
            rw [if_neg (by simp), if_neg (by simp), join_relPath, ih]
            rfl

theorem mem_occurrences_iff {n : Nat} {ns : List String} {c x : Checksum} {p : Path} :
    (p, x) ∈ o.occurrences n false (.rootDir :: relPath ns) c ↔
      ∃ q, p = .rootDir :: relPath q ∧ (q, some x) ∈ listing o false n false ns c := by
  rw [occurrences_eq, List.mem_filterMap]
  constructor
  · rintro ⟨⟨q, y⟩, hq, h⟩
    obtain ⟨z, rfl, h⟩ := Option.map_eq_some_iff.mp h
    cases h
    exact ⟨q, rfl, hq⟩
  · rintro ⟨q, rfl, hq⟩
    exact ⟨(q, some x), hq, rfl⟩

/-- No occurrence comes twice. -/
theorem nodup_occurrences {n : Nat} {ns : List String} {c : Checksum} (hnames : WellNamed o c) :
    (o.occurrences n false (.rootDir :: relPath ns) c).Nodup := by
  rw [occurrences_eq]
  refine List.Nodup.filterMap ?_ (nodup_listing hnames).of_map
  rintro ⟨q, x⟩ ⟨q', x'⟩ r hr hr'
  obtain ⟨y, rfl, rfl⟩ := Option.map_eq_some_iff.mp hr
  obtain ⟨y', rfl, h⟩ := Option.map_eq_some_iff.mp hr'
  obtain ⟨hpath, rfl⟩ := Prod.mk.inj h
  have hq : q' = q := relPath_inj (List.cons.inj hpath).2
  rw [hq]

/-- With an empty `sysroot`, or none, the listing of the walk has all files of the commit. -/
theorem mem_listing_root {commit : Commit} (hroot : SysrootEmpty o commit) {n : Nat}
    {q : List String} {x : Checksum} :
    (q, some x) ∈ listing o false n true [] commit.contents ↔
      (q, some x) ∈ listing o false n false [] commit.contents := by
  cases n with
  | zero => rfl
  | succ n =>
      rw [mem_listing_succ, mem_listing_succ]
      constructor
      · rintro ⟨d, hd, h | ⟨s, hs, _, h⟩⟩
        · exact ⟨d, hd, .inl h⟩
        · exact ⟨d, hd, .inr ⟨s, hs, (fun hroot => nomatch hroot.1), h⟩⟩
      · rintro ⟨d, hd, h | ⟨s, hs, _, h⟩⟩
        · exact ⟨d, hd, .inl h⟩
        · by_cases hn : s.1 = "sysroot"
          · -- nothing is listed in an empty directory
            exfalso
            rcases h with ⟨_, hx⟩ | h
            · exact nomatch hx
            have hempty := hroot d s hd hs hn
            cases n with
            | zero => exact nomatch h
            | succ n =>
                obtain ⟨d', hd', h⟩ := mem_listing_succ.mp h
                obtain rfl := Option.some.inj (hempty.symm.trans hd')
                rcases h with ⟨_, f, hf, _⟩ | ⟨s', hs', _⟩
                · exact nomatch hf
                · exact nomatch hs'
          · exact ⟨d, hd, .inr ⟨s, hs, fun hroot => hn hroot.2, h⟩⟩

/-- Listed paths start with a name of the root that the walk does not skip. -/
theorem listing_head {b isRoot : Bool} {n : Nat} {c : Checksum} {q : List String}
    {x : Option Checksum} (h : (q, x) ∈ listing o b n isRoot [] c) :
    ∃ d name, o.dirtrees[c]? = some d ∧ q.head? = some name ∧
      ((∃ f ∈ d.files, f.1 = name) ∨
       ∃ s ∈ d.dirs, s.1 = name ∧ ¬ (isRoot = true ∧ name = "sysroot")) := by
  cases n with
  | zero => exact nomatch h
  | succ n =>
      obtain ⟨d, hd, ⟨_, f, hf, rfl, _⟩ | ⟨s, hs, hskip, ⟨rfl, _⟩ | h⟩⟩ := mem_listing_succ.mp h
      · exact ⟨d, f.1, hd, rfl, .inl ⟨f, hf, rfl⟩⟩
      · exact ⟨d, s.1, hd, rfl, .inr ⟨s, hs, rfl, hskip⟩⟩
      · obtain ⟨name, rest, rfl⟩ := listing_path h
        exact ⟨d, s.1, hd, rfl, .inr ⟨s, hs, rfl, hskip⟩⟩

/-- The walk of a commit lists nothing under `sysroot`. -/
theorem listing_outside {b : Bool} {n : Nat} {commit : Commit} {q : List String}
    {x : Option Checksum} (hfile : ∀ d, o.dirtrees[commit.contents]? = some d →
      ∀ f ∈ d.files, f.1 ≠ "sysroot")
    (h : (q, x) ∈ listing o b n true [] commit.contents) : q.head? ≠ some "sysroot" := by
  obtain ⟨d, name, hd, hname, ⟨f, hf, rfl⟩ | ⟨s, _, rfl, hskip⟩⟩ := listing_head h
  · rw [hname]
    exact fun heq => hfile d hd f hf (Option.some.inj heq)
  · rw [hname]
    exact fun heq => hskip ⟨rfl, Option.some.inj heq⟩

theorem mapPath_curDir (p : Path) : ∃ r, mapPath (.curDir :: p) = .curDir :: r := by
  rw [mapPath]
  split
  · exact ⟨_, rfl⟩
  · exact ⟨p, rfl⟩

/-- The directories that the walk enters are written with a leading `./`. -/
theorem visits_enter {b isRoot : Bool} {n : Nat} {p q : Path} {c : Checksum}
    (h : Visit.enter p ∈ visits o b n (.curDir :: q) c isRoot) : ∃ r, p = .curDir :: r := by
  induction n generalizing q c isRoot with
  | zero => exact nomatch h
  | succ n ih =>
      obtain ⟨d, _, h⟩ := mem_visits_succ.mp h
      rcases h with h | ⟨_, _, _, h⟩ | h | ⟨s, _, m, _, h | ⟨_, h | h⟩⟩
      · exact nomatch h
      · exact nomatch h
      · injection h with h
        exact ⟨q, h⟩
      · exact nomatch h
      · exact nomatch h
      · obtain ⟨r, hr⟩ := mapPath_curDir (q ++ [.normal s.1])
        rw [show mapPath (Path.join (.curDir :: q) s.1) = .curDir :: r from hr] at h
        exact ih h

end Walk

end OstreeExt.Tar
