import OstreeExt.Tar.Mirror
import Mathlib.Data.Finset.Lattice.Lemmas

/-!
# The walk over a commit

`append_dirtree` visits a tree in a fixed order.  Here that order is a list: on a commit
that is stored completely, the recursion does what a loop over `visits` does.  What the
writer emits is then a statement about the members of the list, and these are the objects
that the tree reaches.
-/

namespace OstreeExt.Tar

open OstreeExt Exec Objects

/-- One step of the walk. -/
inductive Visit where
  | dirtree (c : Checksum) (d : DirTree)
  | file (dirpath : Path) (f : String × Checksum)
  | enter (dirpath : Path)
  | dirmeta (c : Checksum) (m : DirMeta)
  | dir (path : Path) (m : DirMeta)

section Walk

variable (lib : Libostree) (tar : TarCrate) (repo : Repo)

/-- What the writer does at a step. -/
def Visit.run : Visit → ExportM Unit
  | .dirtree c d => appendDirtreeObj c (lib.dirtree.toBytes d)
  | .file dirpath f => appendFile lib tar repo dirpath f
  | .enter dirpath => noteVartmp dirpath
  | .dirmeta c m => appendDirmetaObj c (lib.dirmeta.toBytes m)
  | .dir path m => appendDir path m

/-- The visits to the files of a directory; none when only the structure is written. -/
def fileVisits (structureOnly : Bool) (dirpath : Path) (d : DirTree) : List Visit :=
  if structureOnly then [] else d.files.map (.file dirpath)

/-- The visits to a subdirectory, given those to its tree. -/
def dirVisits (o : Objects) (isRoot : Bool) (dirpath : Path)
    (s : String × Checksum × Checksum) (tree : List Visit) : List Visit :=
  match o.dirmetas[s.2.2]? with
  | none => []
  | some m =>
      .dirmeta s.2.2 m ::
        if isRoot ∧ s.1 = "sysroot" then [] else .dir (mapPath (dirpath.join s.1)) m :: tree

/-- The walk over a tree, in order. -/
def visits (o : Objects) (structureOnly : Bool) : Nat → Path → Checksum → Bool → List Visit
  | 0, _, _, _ => []
  | n + 1, dirpath, c, isRoot =>
      match o.dirtrees[c]? with
      | none => []
      | some d =>
          .dirtree c d :: (fileVisits structureOnly dirpath d ++ .enter dirpath ::
            d.dirs.flatMap fun s => dirVisits o isRoot dirpath s
              (visits o structureOnly n (mapPath (dirpath.join s.1)) s.2.1 false))

end Walk

section Linear

variable {lib : Libostree} {tar : TarCrate} {repo : Repo}

/-- The relation between start and end states that the writer's mode is the same. -/
def SameMode (w w' : TarWriter) : Prop := w'.structureOnly = w.structureOnly

theorem SameMode.trans {a b c : TarWriter} (h : SameMode a b) (h' : SameMode b c) :
    SameMode a c := Eq.trans h' h

theorem appendContent_sameMode (c : Checksum) :
    Steps SameMode (appendContent lib tar repo c) := by
  intro w
  cases hf : repo.files[c]? with
  | none => rw [appendContent_missing hf]; rfl
  | some o =>
      by_cases hc : c ∈ w.wroteContent
      · rw [appendContent_old hf hc]; rfl
      · rw [appendContent_new hf hc]; rfl

theorem appendContentHardlink_sameMode (srcpath : Path) (h : HeaderBuf) (dest : Path) :
    Steps SameMode (appendContentHardlink tar srcpath h dest) := by
  intro w
  unfold appendContentHardlink
  cases hq : h.querySize tar with
  | ok n => rw [bind_of_ok (liftR_ok _ _)]; rfl
  | error e => rw [bind_of_error (liftR_error _ _)]; rfl

theorem Visit.run_sameMode (v : Visit) : Steps SameMode (v.run lib tar repo) := by
  cases v with
  | dirtree c d =>
      intro w
      rw [Visit.run, appendDirtreeObj_run]
      split <;> rfl
  | dirmeta c m =>
      intro w
      rw [Visit.run, appendDirmetaObj_run]
      split <;> rfl
  | file dirpath f =>
      refine Steps.bind (R := SameMode) (fun _ _ _ h h' => SameMode.trans h h')
        (appendContent_sameMode f.2) ?_
      intro a
      exact appendContentHardlink_sameMode a.1 a.2 _
  | enter dirpath =>
      intro w
      rw [Visit.run, noteVartmp]
      split <;> rfl
  | dir path m => intro w; rfl

/-- The walk leaves the writer's mode alone. -/
theorem visits_sameMode (vs : List Visit) : Steps SameMode (forM vs (Visit.run lib tar repo)) :=
  Steps.loop (R := SameMode) (fun _ => rfl) (fun _ _ _ h h' => SameMode.trans h h')
    (fun v _ => Visit.run_sameMode v)

/-- A program that succeeds and keeps the mode ends in the mode it started in. -/
theorem sameMode_of_ok {α : Type} {x : ExportM α} (hx : Steps SameMode x) {w w' : TarWriter}
    {a : α} (h : x w = .ok a w') : w'.structureOnly = w.structureOnly := by
  have := hx w
  rw [h] at this
  exact this

/-- A step that succeeds leaves the writer's mode alone. -/
theorem Visit.run_mode {v : Visit} {w w' : TarWriter} {u : Unit}
    (h : v.run lib tar repo w = .ok u w') : w'.structureOnly = w.structureOnly :=
  sameMode_of_ok v.run_sameMode h

theorem appendFiles_eq (dirpath : Path) (d : DirTree) (w : TarWriter) :
    appendFiles lib tar repo dirpath d.files w
      = forM (fileVisits w.structureOnly dirpath d) (Visit.run lib tar repo) w := by
  unfold appendFiles fileVisits
  rw [bind_of_ok (get_run _)]
  by_cases hs : w.structureOnly
  · rw [if_pos hs, if_pos hs]; rfl
  · rw [if_neg hs, if_neg hs, forM_map]; rfl

/-- One round of the loop over the subdirectories. -/
def appendSubdir (lib : Libostree) (tar : TarCrate) (repo : Repo) (fuel : Nat) (dirpath : Path)
    (isRoot : Bool) (s : String × Checksum × Checksum) : ExportM Unit := do
  let m ← liftR (repo.loadDirmeta s.2.2)
  appendDirmetaObj s.2.2 (lib.dirmeta.toBytes m)
  if isRoot ∧ s.1 = "sysroot" then pure ()
  else
    appendDir (mapPath (dirpath.join s.1)) m
    appendDirtree lib tar repo fuel (mapPath (dirpath.join s.1)) s.2.1 false

theorem appendSubdir_eq {fuel : Nat} {dirpath : Path} {isRoot : Bool}
    {s : String × Checksum × Checksum} (hm : s.2.2 ∈ repo.dirmetas) {w : TarWriter}
    {tree : List Visit}
    (htree : ∀ w' : TarWriter, w'.structureOnly = w.structureOnly →
      appendDirtree lib tar repo fuel (mapPath (dirpath.join s.1)) s.2.1 false w'
        = forM tree (Visit.run lib tar repo) w') :
    appendSubdir lib tar repo fuel dirpath isRoot s w
      = forM (dirVisits repo.toObjects isRoot dirpath s tree) (Visit.run lib tar repo) w := by
  obtain ⟨m, hm⟩ := Std.ExtTreeMap.mem_iff_lookup.mp hm
  simp only [appendSubdir, dirVisits, Repo.loadDirmeta, hm, okOr_some]
  rw [bind_of_ok (liftR_ok _ _), List.forM_cons]
  refine bind_congr_ok rfl (fun _ w₁ h₁ => ?_)
  have hw₁ : w₁.structureOnly = w.structureOnly :=
    Visit.run_mode (show (Visit.dirmeta s.2.2 m).run lib tar repo _ = _ from h₁)
  by_cases hskip : isRoot = true ∧ s.1 = "sysroot"
  · rw [if_pos hskip, if_pos hskip]; rfl
  · rw [if_neg hskip, if_neg hskip, List.forM_cons]
    refine bind_congr_ok rfl (fun _ w₂ h₂ => ?_)
    have hw₂ : w₂.structureOnly = w₁.structureOnly :=
      Visit.run_mode (show (Visit.dir (mapPath (dirpath.join s.1)) m).run lib tar repo _ = _ from h₂)
    exact htree w₂ (hw₂.trans hw₁)

/-- **The recursion is the walk**: on a tree that is stored completely, `append_dirtree`
    does what a loop over the visits does. -/
theorem appendDirtree_eq_visits {fuel : Nat} {c : Checksum}
    (hstored : ∀ ty x, repo.Reaches c ty x → repo.Has ty x) (hdepth : repo.DepthLt fuel c)
    (dirpath : Path) (isRoot : Bool) (w : TarWriter) :
    appendDirtree lib tar repo fuel dirpath c isRoot w
      = forM (visits repo.toObjects w.structureOnly fuel dirpath c isRoot)
          (Visit.run lib tar repo) w := by
  induction fuel generalizing dirpath c isRoot w with
  | zero => exact hdepth.elim
  | succ fuel ih =>
      obtain ⟨d, hd⟩ := Std.ExtTreeMap.mem_iff_lookup.mp (hstored .dirTree c (.self c))
      simp only [appendDirtree, visits, Repo.loadDirtree, hd, okOr_some]
      rw [bind_of_ok (liftR_ok _ _), List.forM_cons, forM_append, List.forM_cons, forM_flatMap]
      refine bind_congr_ok rfl (fun _ w₁ h₁ => ?_)
      have hw₁ : w₁.structureOnly = w.structureOnly :=
        Visit.run_mode (show (Visit.dirtree c d).run lib tar repo _ = _ from h₁)
      refine bind_congr_ok (by rw [appendFiles_eq, hw₁]) (fun _ w₂ h₂ => ?_)
      have hw₂ : w₂.structureOnly = w₁.structureOnly := sameMode_of_ok (visits_sameMode _) h₂
      refine bind_congr_ok rfl (fun _ w₃ h₃ => ?_)
      have hw₃ : w₃.structureOnly = w₂.structureOnly :=
        Visit.run_mode (show (Visit.enter dirpath).run lib tar repo _ = _ from h₃)
      -- every subdirectory is walked in the mode of the writer
      refine forM_congr (fun w' => w'.structureOnly = w.structureOnly) ?_ ?_ w₃
        (hw₃.trans (hw₂.trans hw₁))
      · intro s hs w' hw'
        refine appendSubdir_eq (hstored _ _ (.dirmeta hd hs)) ?_
        intro w'' hw''
        rw [← hw', ← hw'']
        exact ih (fun ty x hx => hstored ty x (.sub hd hs hx)) (hdepth d hd s hs) _ _ w''
      · intro s _ w' w'' hw' hok
        exact (sameMode_of_ok (visits_sameMode _) hok).trans hw'

end Linear

-- ── What the walk visits ──────────────────────────────────────────────────────

/-- The object that a visit is about. -/
def Visit.object : Visit → Option (ObjectType × Checksum)
  | .dirtree c _ => some (.dirTree, c)
  | .file _ f => some (.file, f.2)
  | .dirmeta c _ => some (.dirMeta, c)
  | .enter _ => none
  | .dir _ _ => none

/-- The objects of one type among the visits, in order. -/
def objectsOf (ty : ObjectType) (vs : List Visit) : List Checksum :=
  vs.filterMap fun v => match v.object with
    | some (ty', c) => if ty' = ty then some c else none
    | none => none

theorem mem_objectsOf {ty : ObjectType} {vs : List Visit} {c : Checksum} :
    c ∈ objectsOf ty vs ↔ ∃ v ∈ vs, v.object = some (ty, c) := by
  unfold objectsOf
  rw [List.mem_filterMap]
  constructor
  · rintro ⟨v, hv, h⟩
    refine ⟨v, hv, ?_⟩
    cases hobj : v.object with
    | none => rw [hobj] at h; exact nomatch h
    | some p =>
        obtain ⟨ty', c'⟩ := p
        rw [hobj] at h
        by_cases hty : ty' = ty
        · simp only [if_pos hty] at h
          rw [hty, Option.some.inj h]
        · simp only [if_neg hty] at h
          exact nomatch h
  · rintro ⟨v, hv, h⟩
    refine ⟨v, hv, ?_⟩
    rw [h]
    simp

section Visits

variable {o : Objects}

/-- Every metadata object of the walk is the stored one. -/
def Visit.Stored (o : Objects) : Visit → Prop
  | .dirtree c d => o.dirtrees[c]? = some d
  | .dirmeta c m => o.dirmetas[c]? = some m
  | _ => True

/-- The members of the walk, one level down. -/
theorem mem_visits_succ {b isRoot : Bool} {n : Nat} {dirpath : Path} {c : Checksum} {v : Visit} :
    v ∈ visits o b (n + 1) dirpath c isRoot ↔ ∃ d, o.dirtrees[c]? = some d ∧
      (v = .dirtree c d ∨ (b = false ∧ ∃ f ∈ d.files, v = .file dirpath f) ∨ v = .enter dirpath ∨
       ∃ s ∈ d.dirs, ∃ m, o.dirmetas[s.2.2]? = some m ∧
         (v = .dirmeta s.2.2 m ∨ (¬ (isRoot = true ∧ s.1 = "sysroot") ∧
           (v = .dir (mapPath (dirpath.join s.1)) m ∨
            v ∈ visits o b n (mapPath (dirpath.join s.1)) s.2.1 false)))) := by
  have hfiles : ∀ d : DirTree,
      v ∈ fileVisits b dirpath d ↔ b = false ∧ ∃ f ∈ d.files, v = .file dirpath f := by
    intro d
    unfold fileVisits
    cases b with
    | true => simp
    | false => simp [eq_comm]
  have hdir : ∀ (s : String × Checksum × Checksum) (tree : List Visit),
      v ∈ dirVisits o isRoot dirpath s tree ↔ ∃ m, o.dirmetas[s.2.2]? = some m ∧
        (v = .dirmeta s.2.2 m ∨ (¬ (isRoot = true ∧ s.1 = "sysroot") ∧
          (v = .dir (mapPath (dirpath.join s.1)) m ∨ v ∈ tree))) := by
    intro s tree
    unfold dirVisits
    cases hm : o.dirmetas[s.2.2]? with
    | none => simp
    | some m =>
        by_cases hskip : isRoot = true ∧ s.1 = "sysroot"
        · simp [hskip]
        · simp [hskip]
  rw [visits]
  cases hd : o.dirtrees[c]? with
  | none => simp
  | some d => simp [hfiles, hdir]

theorem visits_stored (b : Bool) (n : Nat) (dirpath : Path) (c : Checksum) (isRoot : Bool) :
    ∀ v ∈ visits o b n dirpath c isRoot, v.Stored o := by
  induction n generalizing dirpath c isRoot with
  | zero => intro v hv; exact nomatch hv
  | succ n ih =>
      intro v hv
      obtain ⟨d, hd, hv⟩ := mem_visits_succ.mp hv
      rcases hv with rfl | ⟨_, f, _, rfl⟩ | rfl | ⟨s, _, m, hm, rfl | ⟨_, rfl | hv⟩⟩
      · exact hd
      · trivial
      · trivial
      · exact hm
      · trivial
      · exact ih _ _ _ v hv

/-- **The walk visits the objects that a tree reaches**, all of them below the root, and
    content only when more than the structure is written. -/
theorem visits_object {b isRoot : Bool} {n : Nat} {dirpath : Path} {c : Checksum}
    (hstored : ∀ ty x, o.Reaches c ty x → o.Has ty x) (hdepth : o.DepthLt n c)
    {ty : ObjectType} {x : Checksum} :
    (∃ v ∈ visits o b n dirpath c isRoot, v.object = some (ty, x)) ↔
      o.Walks isRoot c ty x ∧ (b = true → ty ≠ .file) := by
  induction n generalizing dirpath c isRoot with
  | zero => exact hdepth.elim
  | succ n ih =>
      obtain ⟨d, hd⟩ := Std.ExtTreeMap.mem_iff_lookup.mp (hstored .dirTree c (.self c))
      have hih : ∀ s ∈ d.dirs, ∀ p, (∃ v ∈ visits o b n p s.2.1 false,
          v.object = some (ty, x)) ↔ o.Reaches s.2.1 ty x ∧ (b = true → ty ≠ .file) := by
        intro s hs p
        rw [ih (fun ty x hx => hstored ty x (.sub hd hs hx)) (hdepth d hd s hs), walks_false]
      constructor
      · rintro ⟨v, hv, hobj⟩
        obtain ⟨d', hd', hv⟩ := mem_visits_succ.mp hv
        obtain rfl : d = d' := Option.some.inj (hd.symm.trans hd')
        rcases hv with rfl | ⟨hb, f, hf, rfl⟩ | rfl | ⟨s, hs, m, hm, rfl | ⟨hskip, rfl | hv⟩⟩
        · cases hobj
          exact ⟨.inl ⟨rfl, rfl⟩, fun _ => by simp⟩
        · cases hobj
          exact ⟨.inr ⟨d, hd, .inl ⟨rfl, f, hf, rfl⟩⟩, fun hb' => by rw [hb] at hb'; exact nomatch hb'⟩
        · exact nomatch hobj
        · cases hobj
          exact ⟨.inr ⟨d, hd, .inr ⟨s, hs, .inl ⟨rfl, rfl⟩⟩⟩, fun _ => by simp⟩
        · exact nomatch hobj
        · obtain ⟨hr, hb⟩ := (hih s hs _).mp ⟨v, hv, hobj⟩
          exact ⟨.inr ⟨d, hd, .inr ⟨s, hs, .inr ⟨hskip, hr⟩⟩⟩, hb⟩
      · rintro ⟨hw, hb⟩
        rcases hw with ⟨rfl, rfl⟩ | ⟨d', hd', hw⟩
        · exact ⟨.dirtree x d, mem_visits_succ.mpr ⟨d, hd, .inl rfl⟩, rfl⟩
        · obtain rfl : d = d' := Option.some.inj (hd.symm.trans hd')
          rcases hw with ⟨rfl, f, hf, rfl⟩ | ⟨s, hs, hw⟩
          · refine ⟨.file dirpath f, mem_visits_succ.mpr ⟨d, hd, .inr (.inl ⟨?_, f, hf, rfl⟩)⟩, rfl⟩
            cases b with
            | false => rfl
            | true => exact absurd rfl (hb rfl)
          · obtain ⟨m, hm⟩ :=
              Std.ExtTreeMap.mem_iff_lookup.mp (hstored .dirMeta _ (.dirmeta hd hs))
            rcases hw with ⟨rfl, rfl⟩ | ⟨hskip, hr⟩
            · exact ⟨.dirmeta s.2.2 m, mem_visits_succ.mpr
                ⟨d, hd, .inr (.inr (.inr ⟨s, hs, m, hm, .inl rfl⟩))⟩, rfl⟩
            · obtain ⟨v, hv, hobj⟩ := (hih s hs (mapPath (dirpath.join s.1))).mpr ⟨hr, hb⟩
              exact ⟨v, mem_visits_succ.mpr
                ⟨d, hd, .inr (.inr (.inr ⟨s, hs, m, hm, .inr ⟨hskip, .inr hv⟩⟩))⟩, hobj⟩

-- ── The checkout lies outside the repository ─────────────────────────────────

/-- The directories of the walk: `./` at the root, and below it paths that do not start
    with `sysroot`. -/
def CheckoutDir : Bool → Path → Prop
  | true, p => p = tarPathPrefixV0
  | false, p => ∃ n rest, p = .curDir :: .normal n :: rest ∧ n ≠ "sysroot"

theorem stripPrefix_repoPrefix_of_ne {n : String} (hn : n ≠ "sysroot") (rest : Path) :
    stripPrefix repoPrefix (tarPath (.curDir :: .normal n :: rest)) = none := by
  simp [tarPath, repoPrefix, stripPrefix, Ne.symm hn]

/-- Mapping `usr/etc` to `etc` stays outside of `sysroot`. -/
theorem mapPath_checkout {n : String} (hn : n ≠ "sysroot") (rest : Path) :
    ∃ n' rest', mapPath (.curDir :: .normal n :: rest) = .curDir :: .normal n' :: rest' ∧
      n' ≠ "sysroot" := by
  unfold mapPath
  cases hs : stripPrefix [.curDir, .normal "usr", .normal "etc"] (.curDir :: .normal n :: rest) with
  | none => exact ⟨n, rest, rfl, hn⟩
  | some r => exact ⟨"etc", r, rfl, by decide⟩

theorem CheckoutDir.sub {isRoot : Bool} {p : Path} (h : CheckoutDir isRoot p) {name : String}
    (hskip : ¬ (isRoot = true ∧ name = "sysroot")) :
    CheckoutDir false (mapPath (p.join name)) := by
  cases isRoot with
  | true =>
      rw [show p = tarPathPrefixV0 from h]
      exact mapPath_checkout (fun hn => hskip ⟨rfl, hn⟩) []
  | false =>
      obtain ⟨n, rest, rfl, hn⟩ := h
      exact mapPath_checkout hn (rest ++ [.normal name])

theorem CheckoutDir.file {isRoot : Bool} {p : Path} (h : CheckoutDir isRoot p) (name : String) :
    stripPrefix repoPrefix (tarPath (mapPath (p.join name))) = none := by
  cases isRoot with
  | true =>
      rw [show p = tarPathPrefixV0 from h]
      have hmap : mapPath (tarPathPrefixV0.join name) = [.curDir, .normal name] := by
        unfold mapPath Path.join tarPathPrefixV0
        by_cases hu : "usr" = name
        · simp [stripPrefix, hu]
        · simp [stripPrefix, hu]
      rw [hmap]
      by_cases hn : name = "sysroot"
      · subst hn; decide
      · exact stripPrefix_repoPrefix_of_ne hn []
  | false =>
      obtain ⟨n, rest, rfl, hn⟩ := h
      obtain ⟨n', rest', hmap, hn'⟩ := mapPath_checkout hn (rest ++ [.normal name])
      have hjoin : Path.join (.curDir :: .normal n :: rest) name
          = .curDir :: .normal n :: (rest ++ [.normal name]) := rfl
      rw [hjoin, hmap]
      exact stripPrefix_repoPrefix_of_ne hn' rest'

theorem visits_file_dir {b isRoot : Bool} {n : Nat} {p dirpath : Path} {c : Checksum}
    {f : String × Checksum} (hp : CheckoutDir isRoot p)
    (hv : Visit.file dirpath f ∈ visits o b n p c isRoot) : ∃ r, CheckoutDir r dirpath := by
  induction n generalizing p c isRoot with
  | zero => exact nomatch hv
  | succ n ih =>
      obtain ⟨d, _, hv⟩ := mem_visits_succ.mp hv
      rcases hv with h | ⟨_, _, _, h⟩ | h | ⟨s, _, m, _, h | ⟨hskip, h | hv⟩⟩
      · exact nomatch h
      · injection h with h1 h2
        exact ⟨isRoot, by rw [h1]; exact hp⟩
      · exact nomatch h
      · exact nomatch h
      · exact nomatch h
      · exact ih (hp.sub hskip) hv

-- ── Occurrences ───────────────────────────────────────────────────────────────

theorem objectsOf_append (ty : ObjectType) (vs us : List Visit) :
    objectsOf ty (vs ++ us) = objectsOf ty vs ++ objectsOf ty us := List.filterMap_append ..

theorem objectsOf_flatMap {α : Type} (ty : ObjectType) (l : List α) (g : α → List Visit) :
    objectsOf ty (l.flatMap g) = l.flatMap (fun a => objectsOf ty (g a)) := by
  induction l with
  | nil => rfl
  | cons a l ih => rw [List.flatMap_cons, objectsOf_append, ih, List.flatMap_cons]

/-- The files of the walk are the occurrences of content objects, in order. -/
theorem objectsOf_file_visits {isRoot : Bool} {n : Nat} {dirpath path : Path} {c : Checksum}
    (hstored : ∀ ty x, o.Reaches c ty x → o.Has ty x) :
    objectsOf .file (visits o false n dirpath c isRoot)
      = (o.occurrences n isRoot path c).map (·.2) := by
  induction n generalizing dirpath path c isRoot with
  | zero => rfl
  | succ n ih =>
      obtain ⟨d, hd⟩ := Std.ExtTreeMap.mem_iff_lookup.mp (hstored .dirTree c (.self c))
      have hfiles : objectsOf .file (fileVisits false dirpath d) = d.files.map (·.2) := by
        unfold fileVisits objectsOf
        rw [if_neg (by simp), List.filterMap_map, ← List.filterMap_eq_map]
        rfl
      have hsub : ∀ s ∈ d.dirs,
          objectsOf .file (dirVisits o isRoot dirpath s
            (visits o false n (mapPath (dirpath.join s.1)) s.2.1 false))
          = (if isRoot = true ∧ s.1 = "sysroot" then []
              else o.occurrences n false (path.join s.1) s.2.1).map (·.2) := by
        intro s hs
        obtain ⟨m, hm⟩ :=
          Std.ExtTreeMap.mem_iff_lookup.mp (hstored .dirMeta _ (.dirmeta hd hs))
        have hrec := @ih false (mapPath (dirpath.join s.1)) (path.join s.1) s.2.1
          (fun ty x hx => hstored ty x (.sub hd hs hx))
        unfold dirVisits
        rw [hm]
        by_cases hskip : isRoot = true ∧ s.1 = "sysroot"
        · simp only [if_pos hskip]; rfl
        · simp only [if_neg hskip]
          exact hrec
      simp only [visits, occurrences, hd]
      rw [List.map_append, List.map_map, List.map_flatMap]
      show objectsOf .file (fileVisits false dirpath d ++ _) = _
      rw [objectsOf_append, hfiles]
      congr 1
      show objectsOf .file (d.dirs.flatMap _) = _
      rw [objectsOf_flatMap]
      exact List.flatMap_congr hsub

end Visits

-- ── The walk arrives ──────────────────────────────────────────────────────────

section Carries

variable {lib : Libostree} {tar : TarCrate} {src : Repo} {scope : Checksum → Prop}
  {base : Repo} {o : Option Checksum} {T M F : Finset Checksum}

/-- `Header::size` succeeds on the header of an object that was already written. -/
def Relinkable (tar : TarCrate) (f : FileObject) : Prop :=
  ∃ n, (contentHeader f).querySize tar = .ok n

/-- The files of a walk that come again can be linked to again. -/
def RelinkableWalk (tar : TarCrate) (o : Objects) (F : Finset Checksum) (vs : List Visit) : Prop :=
  ∀ pre p f post x, vs = pre ++ .file p f :: post → f.2 ∈ F ∪ (objectsOf .file pre).toFinset →
    o.files[f.2]? = some x → Relinkable tar x

/-- A visit that the importer accepts: its object is intact and outside of the
    repository's own directory. -/
structure Visit.Sound (lib : Libostree) (o : Objects) (scope : Checksum → Prop) (v : Visit) :
    Prop where
  stored : v.Stored o
  intact : ∀ ty c, v.object = some (ty, c) → Intact lib o ty c
  scope : ∀ c, v.object = some (.file, c) → scope c
  outside : ∀ p f, v = .file p f → stripPrefix repoPrefix (tarPath (mapPath (p.join f.1))) = none

/-- What the writer's sets are after a list of visits. -/
def afterVisits (ty : ObjectType) (S : Finset Checksum) (vs : List Visit) : Finset Checksum :=
  S ∪ (objectsOf ty vs).toFinset

theorem afterVisits_snoc (ty : ObjectType) (S : Finset Checksum) (vs : List Visit) (v : Visit) :
    afterVisits ty S (vs ++ [v]) = afterVisits ty (afterVisits ty S vs) [v] := by
  unfold afterVisits
  rw [objectsOf_append, List.toFinset_append, Finset.union_assoc]

theorem intactDirtree_of_lookup {c : Checksum} {d : DirTree} (h : Intact lib src.toObjects .dirTree c)
    (hd : src.dirtrees[c]? = some d) : IntactDirtree lib src.toObjects c d := by
  obtain ⟨d', h'⟩ := h
  obtain rfl : d = d' := Option.some.inj (hd.symm.trans h'.1)
  exact h'

theorem intactDirmeta_of_lookup {c : Checksum} {m : DirMeta} (h : Intact lib src.toObjects .dirMeta c)
    (hm : src.dirmetas[c]? = some m) : IntactDirmeta lib src.toObjects c m := by
  obtain ⟨m', h'⟩ := h
  obtain rfl : m = m' := Option.some.inj (hm.symm.trans h'.1)
  exact h'

/-- One step of the walk arrives. -/
theorem carries_visit (htar : tar.KeepsLinks) (hdist : XattrsDistinct lib src.toObjects scope)
    {v : Visit} (hv : v.Sound lib src.toObjects scope)
    (hrelink : ∀ p f x, v = .file p f → f.2 ∈ F → src.files[f.2]? = some x → Relinkable tar x) :
    Carries lib (Mirror lib src.toObjects scope base (some o) T M F) (v.run lib tar src)
      (fun _ => Mirror lib src.toObjects scope base (some o) (afterVisits .dirTree T [v])
        (afterVisits .dirMeta M [v]) (afterVisits .file F [v])) := by
  have hnone : ∀ S : Finset Checksum, S ∪ ([] : List Checksum).toFinset = S := by simp
  have hone : ∀ (S : Finset Checksum) c, S ∪ [c].toFinset = insert c S := by
    intro S c
    rw [List.toFinset_cons, List.toFinset_nil, Finset.union_insert, Finset.union_empty]
  cases v with
  | dirtree c d =>
      have hd := intactDirtree_of_lookup (hv.intact _ _ rfl) hv.stored
      simp only [afterVisits, objectsOf, Visit.object, List.filterMap, reduceCtorEq, if_true,
        if_false, hnone, hone]
      exact carries_dirtree hd
  | dirmeta c m =>
      have hm := intactDirmeta_of_lookup (hv.intact _ _ rfl) hv.stored
      simp only [afterVisits, objectsOf, Visit.object, List.filterMap, reduceCtorEq, if_true,
        if_false, hnone, hone]
      exact carries_dirmeta hm
  | enter p =>
      simp only [afterVisits, objectsOf, Visit.object, List.filterMap, hnone]
      refine Relay.silent (fun w t h => ?_)
      rw [Visit.run, noteVartmp]
      by_cases hp : p = [.normal "var", .normal "tmp"]
      · rw [if_pos hp]
        exact ⟨⟨⟩, _, rfl, rfl, { h with }⟩
      · rw [if_neg hp]
        exact ⟨⟨⟩, w, rfl, rfl, h⟩
  | dir p m =>
      simp only [afterVisits, objectsOf, Visit.object, List.filterMap, hnone]
      exact carries_skip (filterEntry_directory rfl)
  | file p f =>
      obtain ⟨x, hx⟩ := hv.intact _ _ rfl
      simp only [afterVisits, objectsOf, Visit.object, List.filterMap, reduceCtorEq, if_true,
        if_false, hnone, hone]
      refine Relay.bind (carries_content htar hdist (hv.scope _ rfl) hx) ?_
      rintro ⟨objpath, h⟩
      -- the header tells its size, unless the object was already written
      have hsize : ∀ w t, ((objpath, h) = (objectPath .file f.2,
          if f.2 ∈ F then contentHeader x else writtenHeader x) ∧
          Mirror lib src.toObjects scope base (some o) T M (insert f.2 F) w t) →
          (∃ n, h.querySize tar = .ok n) ∧
          Mirror lib src.toObjects scope base (some o) T M (insert f.2 F) w t := by
        rintro w t ⟨ha, hm⟩
        refine ⟨?_, hm⟩
        rw [(Prod.mk.inj ha).2]
        by_cases hF : f.2 ∈ F
        · rw [if_pos hF]
          exact hrelink p f x rfl hF hx.1
        · rw [if_neg hF]
          exact ⟨x.size, by unfold HeaderBuf.querySize; rw [writtenHeader_size]⟩
      intro w t hpre
      obtain ⟨⟨n, hn⟩, hm⟩ := hsize w t hpre
      exact carries_hardlink hn (hv.outside p f rfl) w t hm

/-- **The walk arrives**: the importer holds the objects of all visits. -/
theorem carries_visits (htar : tar.KeepsLinks) (hdist : XattrsDistinct lib src.toObjects scope)
    {vs : List Visit} (hvs : ∀ v ∈ vs, v.Sound lib src.toObjects scope)
    (hrelink : RelinkableWalk tar src.toObjects F vs) :
    Carries lib (Mirror lib src.toObjects scope base (some o) T M F)
      (forM vs (Visit.run lib tar src))
      (fun _ => Mirror lib src.toObjects scope base (some o) (afterVisits .dirTree T vs)
        (afterVisits .dirMeta M vs) (afterVisits .file F vs)) := by
  let I : List Visit → TarWriter → Importer → Prop := fun pre =>
    Mirror lib src.toObjects scope base (some o) (afterVisits .dirTree T pre)
      (afterVisits .dirMeta M pre) (afterVisits .file F pre)
  have hloop : Carries lib (I []) (forM vs (Visit.run lib tar src)) (fun _ => I vs) := by
    refine Relay.loop I ?_
    intro pre v post hl
    simp only [I, afterVisits_snoc]
    refine carries_visit htar hdist (hvs v (by rw [hl]; simp)) ?_
    rintro p f x rfl hF hx
    exact hrelink pre p f post x hl hF hx
  simpa [I, afterVisits, objectsOf] using hloop

end Carries

end OstreeExt.Tar
