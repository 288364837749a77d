import OstreeExt.Packing
import OstreeExt.Tree

/-!
# Chunking conserves objects

`Chunking::new` puts every content object of a commit into one chunk, with its size and
with all the paths at which it occurs.  Moving objects between chunks keeps that mapping:
at any time each object is in exactly one chunk, with the size and the paths it had.
-/

namespace OstreeExt

open Std Exec Objects

-- ── Splitting a mapping ───────────────────────────────────────────────────────

/-- **The parts split a mapping**: each of its keys is in exactly one of them, with its
    value, and there are no other keys. -/
def Splits (whole : ChunkMapping) (parts : List ChunkMapping) : Prop :=
  ∀ k : Checksum, parts.filterMap (·[k]?) = whole[k]?.toList

section Splits

variable {whole : ChunkMapping} {parts : List ChunkMapping}

theorem Splits.single (whole : ChunkMapping) : Splits whole [whole] := by
  intro k
  rw [List.filterMap_cons]
  cases whole[k]? <;> rfl

/-- What is in a part is in the whole. -/
theorem Splits.sub (h : Splits whole parts) {p : ChunkMapping} (hp : p ∈ parts) {k : Checksum}
    {v : Nat × List Path} (hv : p[k]? = some v) : whole[k]? = some v := by
  have hmem : v ∈ parts.filterMap (·[k]?) := List.mem_filterMap.mpr ⟨p, hp, hv⟩
  rw [h k] at hmem
  exact Option.mem_toList.mp hmem

/-- What is in the whole is in a part. -/
theorem Splits.cover (h : Splits whole parts) {k : Checksum} {v : Nat × List Path}
    (hv : whole[k]? = some v) : ∃ p ∈ parts, p[k]? = some v := by
  have hmem : v ∈ whole[k]?.toList := Option.mem_toList.mpr hv
  rw [← h k] at hmem
  exact List.mem_filterMap.mp hmem

/-- No key is in two parts. -/
theorem Splits.disjoint (h : Splits whole parts) :
    parts.Pairwise (fun p q => ∀ k, k ∈ p → k ∉ q) := by
  have hlen : ∀ k : Checksum, (parts.filterMap (·[k]?)).length ≤ 1 := by
    intro k
    rw [h k]
    cases whole[k]? <;> simp
  clear h
  induction parts with
  | nil => exact .nil
  | cons p parts ih =>
      refine List.pairwise_cons.mpr ⟨fun q hq k hp hqk => ?_, ih (fun k => ?_)⟩
      · obtain ⟨v, hv⟩ := ExtTreeMap.mem_iff_lookup.mp hp
        obtain ⟨u, hu⟩ := ExtTreeMap.mem_iff_lookup.mp hqk
        have hmem : u ∈ parts.filterMap (·[k]?) := List.mem_filterMap.mpr ⟨q, hq, hu⟩
        have hk := hlen k
        rw [List.filterMap_cons, hv, List.length_cons] at hk
        have hpos := List.length_pos_of_mem hmem
        omega
      · refine Nat.le_trans ?_ (hlen k)
        rw [List.filterMap_cons]
        cases p[k]? with
        | none => exact Nat.le_refl _
        | some v => exact Nat.le_succ _

/-- An empty part makes no difference. -/
theorem Splits.push (h : Splits whole parts) : Splits whole (parts ++ [∅]) := by
  intro k
  rw [List.filterMap_append, h k, List.filterMap_cons, ExtTreeMap.lookup_empty]
  exact List.append_nil _

/-- The order of the parts does not matter. -/
theorem Splits.perm {parts' : List ChunkMapping} (h : Splits whole parts)
    (hperm : parts.Perm parts') : Splits whole parts' := by
  intro k
  have hk := (hperm.filterMap (·[k]?)).symm
  rw [h k] at hk
  cases hw : whole[k]? with
  | none => rw [hw] at hk; exact hk.eq_nil
  | some v => rw [hw] at hk; exact List.perm_singleton.mp hk

end Splits

-- ── Moving objects ────────────────────────────────────────────────────────────

/-- The size of the objects in a mapping. -/
def contentSize (m : ChunkMapping) : Nat := (m.toList.map (·.2.1)).sum

/-- The recorded size of a chunk is that of its content. -/
def Chunk.Sized (chunk : Chunk) : Prop := chunk.size = contentSize chunk.content

theorem contentSize_insert {m : ChunkMapping} {k : Checksum} (hk : k ∉ m) (v : Nat × List Path) :
    contentSize (m.insert k v) = contentSize m + v.1 := by
  unfold contentSize
  rw [((ExtTreeMap.toList_insert_perm hk v).map _).sum_nat, List.map_cons, List.sum_cons,
    Nat.add_comm]

theorem contentSize_erase {m : ChunkMapping} {k : Checksum} {v : Nat × List Path}
    (hk : m[k]? = some v) : contentSize m = contentSize (m.erase k) + v.1 := by
  unfold contentSize
  rw [((ExtTreeMap.toList_erase_perm hk).map _).sum_nat, List.map_cons, List.sum_cons,
    Nat.add_comm]

theorem sized_empty (name : String) (packages : List String) :
    Chunk.Sized { name := name, packages := packages } := rfl

section MoveObj

variable {a b : Chunk} {x : Checksum}

theorem moveObj_none (h : a.content[x]? = none) : a.moveObj b x = (a, b) := by
  simp only [Chunk.moveObj, h]

theorem moveObj_some {v : Nat × List Path} (h : a.content[x]? = some v) :
    a.moveObj b x =
      ({ a with content := a.content.erase x, size := a.size - v.1 },
       { b with content := b.content.insert x v, size := b.size + v.1 }) := by
  simp only [Chunk.moveObj, h]

/-- Moving an object keeps the sizes right, if the destination does not have it. -/
theorem moveObj_sized (ha : a.Sized) (hb : b.Sized) (hx : x ∈ a.content → x ∉ b.content) :
    (a.moveObj b x).1.Sized ∧ (a.moveObj b x).2.Sized := by
  cases h : a.content[x]? with
  | none => rw [moveObj_none h]; exact ⟨ha, hb⟩
  | some v =>
      rw [moveObj_some h]
      have hsrc := contentSize_erase h
      have hdst := contentSize_insert (hx (ExtTreeMap.mem_iff_lookup.mpr ⟨v, h⟩)) v
      unfold Chunk.Sized at *
      dsimp only
      omega

/-- **Moving an object keeps the split.** -/
theorem moveObj_splits {whole : ChunkMapping} {rest : List ChunkMapping}
    (h : Splits whole (a.content :: b.content :: rest)) :
    Splits whole ((a.moveObj b x).1.content :: (a.moveObj b x).2.content :: rest) := by
  cases ha : a.content[x]? with
  | none => rw [moveObj_none ha]; exact h
  | some v =>
      have hb : b.content[x]? = none := by
        have hdisj := (List.pairwise_cons.mp h.disjoint).1 b.content (List.mem_cons_self ..) x
          (ExtTreeMap.mem_iff_lookup.mpr ⟨v, ha⟩)
        exact ExtTreeMap.getElem?_eq_none hdisj
      rw [moveObj_some ha]
      intro k
      rw [← h k]
      simp only [List.filterMap_cons, ExtTreeMap.lookup_erase, ExtTreeMap.lookup_insert]
      by_cases hk : x = k
      · subst hk
        simp only [if_true, ha, hb]
      · simp only [if_neg hk]

end MoveObj

/-- **Any number of `move_obj` calls into chunks.**  The slots are the remainder, at the
    head, and the chunks; new chunks are empty, and an object may be moved from any slot
    into any chunk. -/
inductive Moves (start : List Chunk) : List Chunk → Prop where
  | refl : Moves start start
  | push {slots : List Chunk} (name : String) (packages : List String)
      (h : Moves start slots) : Moves start (slots ++ [{ name := name, packages := packages }])
  | forth {pre mid post : List Chunk} {a b : Chunk} (x : Checksum)
      (h : Moves start (pre ++ a :: (mid ++ b :: post))) :
      Moves start (pre ++ (a.moveObj b x).1 :: (mid ++ (a.moveObj b x).2 :: post))
  | back {remainder : Chunk} {pre mid post : List Chunk} {a b : Chunk} (x : Checksum)
      (h : Moves start (remainder :: pre ++ a :: (mid ++ b :: post))) :
      Moves start (remainder :: pre ++ (b.moveObj a x).2 :: (mid ++ (b.moveObj a x).1 :: post))

/-- The contents of some chunks. -/
abbrev contents (slots : List Chunk) : List ChunkMapping := slots.map (·.content)

section Moves

variable {whole : ChunkMapping} {start slots : List Chunk}

/-- Two slots can be brought to the front. -/
theorem perm_front (pre mid post : List Chunk) (a b : Chunk) :
    (pre ++ a :: (mid ++ b :: post)).Perm (a :: b :: (pre ++ (mid ++ post))) := by
  refine List.perm_middle.trans (List.Perm.cons a ?_)
  rw [← List.append_assoc]
  refine List.perm_middle.trans (List.Perm.cons b ?_)
  rw [List.append_assoc]

/-- A move between two slots at any places keeps the split and the sizes. -/
theorem move_keeps {before after rest : List Chunk} {a b : Chunk} {x : Checksum}
    (hbefore : before.Perm (a :: b :: rest))
    (hafter : after.Perm ((a.moveObj b x).1 :: (a.moveObj b x).2 :: rest))
    (h : Splits whole (contents before)) (hs : ∀ c ∈ before, c.Sized) :
    Splits whole (contents after) ∧ ∀ c ∈ after, c.Sized := by
  have hsplit : Splits whole (a.content :: b.content :: contents rest) :=
    h.perm (hbefore.map _)
  refine ⟨(moveObj_splits hsplit).perm (hafter.map _).symm, ?_⟩
  have hdisj : x ∈ a.content → x ∉ b.content :=
    (List.pairwise_cons.mp hsplit.disjoint).1 b.content (List.mem_cons_self ..) x
  have hab := moveObj_sized (hs a (hbefore.mem_iff.mpr (by simp)))
    (hs b (hbefore.mem_iff.mpr (by simp))) hdisj
  intro c hc
  rcases List.mem_cons.mp (hafter.mem_iff.mp hc) with rfl | hc
  · exact hab.1
  · rcases List.mem_cons.mp hc with rfl | hc
    · exact hab.2
    · exact hs c (hbefore.mem_iff.mpr (by simp [hc]))

/-- **Conservation**: whatever is moved, the slots split the same mapping, and their sizes
    are those of their contents. -/
theorem Moves.keeps (h : Moves start slots) (hstart : Splits whole (contents start))
    (hsized : ∀ c ∈ start, c.Sized) :
    Splits whole (contents slots) ∧ ∀ c ∈ slots, c.Sized := by
  induction h with
  | refl => exact ⟨hstart, hsized⟩
  | push name packages _ ih =>
      refine ⟨?_, fun c hc => ?_⟩
      · rw [contents, List.map_append]
        exact ih.1.push
      · rcases List.mem_append.mp hc with hc | hc
        · exact ih.2 c hc
        · rw [List.mem_singleton.mp hc]
          exact sized_empty name packages
  | forth x _ ih => exact move_keeps (perm_front _ _ _ _ _) (perm_front _ _ _ _ _) ih.1 ih.2
  | back x _ ih =>
      refine move_keeps ((perm_front _ _ _ _ _).trans (.swap ..))
        ((perm_front _ _ _ _ _).trans (.swap ..)) ih.1 ih.2

theorem Moves.trans {later : List Chunk} (h : Moves start slots) (h' : Moves slots later) :
    Moves start later := by
  induction h' with
  | refl => exact h
  | push name packages _ ih => exact .push name packages ih
  | forth x _ ih => exact .forth x ih
  | back x _ ih => exact .back x ih

/-- Moving a list of objects out of the remainder into the last chunk. -/
theorem moves_moveObjs (remainder : Chunk) (chunks : List Chunk) (chunk : Chunk)
    (xs : List Checksum) (h : Moves start (remainder :: (chunks ++ [chunk]))) :
    Moves start ((remainder.moveObjs chunk xs).1 ::
      (chunks ++ [(remainder.moveObjs chunk xs).2])) := by
  unfold Chunk.moveObjs
  induction xs generalizing remainder chunk with
  | nil => exact h
  | cons x xs ih => exact ih _ _ (@Moves.forth _ [] _ _ _ _ x h)

/-- What a sequence of moves leaves in the source, and what it puts into the destination. -/
theorem moveObjs_content (a b : Chunk) (xs : List Checksum) (k : Checksum) :
    (a.moveObjs b xs).1.content[k]? = (if k ∈ xs then none else a.content[k]?) ∧
    (a.moveObjs b xs).2.content[k]? =
      if k ∈ xs then a.content[k]?.or b.content[k]? else b.content[k]? := by
  induction xs generalizing a b with
  | nil => exact ⟨rfl, rfl⟩
  | cons x xs ih =>
      have hstep : a.moveObjs b (x :: xs) = (a.moveObj b x).1.moveObjs (a.moveObj b x).2 xs := rfl
      have hsrc : (a.moveObj b x).1.content[k]? = if k = x then none else a.content[k]? := by
        cases ha : a.content[x]? with
        | none =>
            rw [moveObj_none ha]
            by_cases hk : k = x
            · rw [if_pos hk, hk, ha]
            · rw [if_neg hk]
        | some v =>
            rw [moveObj_some ha]
            show (a.content.erase x)[k]? = _
            rw [ExtTreeMap.lookup_erase]
            simp only [eq_comm]
      have hdst : (a.moveObj b x).2.content[k]? =
          if k = x then a.content[k]?.or b.content[k]? else b.content[k]? := by
        cases ha : a.content[x]? with
        | none =>
            rw [moveObj_none ha]
            by_cases hk : k = x
            · rw [if_pos hk, hk, ha, Option.none_or]
            · rw [if_neg hk]
        | some v =>
            rw [moveObj_some ha]
            show (b.content.insert x v)[k]? = _
            rw [ExtTreeMap.lookup_insert]
            by_cases hk : k = x
            · rw [if_pos hk, if_pos hk.symm, hk, ha]; rfl
            · rw [if_neg hk, if_neg (Ne.symm hk)]
      rw [hstep, (ih _ _).1, (ih _ _).2, hsrc, hdst]
      by_cases hk : k = x
      · simp [hk]
      · simp [hk]

/-- The destination keeps its name and its packages. -/
theorem moveObjs_label (a b : Chunk) (xs : List Checksum) :
    (a.moveObjs b xs).2.name = b.name ∧ (a.moveObjs b xs).2.packages = b.packages := by
  induction xs generalizing a b with
  | nil => exact ⟨rfl, rfl⟩
  | cons x xs ih =>
      show ((a.moveObj b x).1.moveObjs (a.moveObj b x).2 xs).2.name = _ ∧
        ((a.moveObj b x).1.moveObjs (a.moveObj b x).2 xs).2.packages = _
      rw [(ih _ _).1, (ih _ _).2]
      cases ha : a.content[x]? with
      | none => rw [moveObj_none ha]; exact ⟨rfl, rfl⟩
      | some v => rw [moveObj_some ha]; exact ⟨rfl, rfl⟩

/-- Moves leave the name and the packages of the remainder alone. -/
theorem Moves.label {r₀ : Chunk} {rest : List Chunk} (h : Moves (r₀ :: rest) slots) :
    ∃ r chunks, slots = r :: chunks ∧ r.name = r₀.name ∧ r.packages = r₀.packages := by
  have hmove : ∀ (a b : Chunk) (x : Checksum),
      (a.moveObj b x).1.name = a.name ∧ (a.moveObj b x).1.packages = a.packages := by
    intro a b x
    cases ha : a.content[x]? with
    | none => rw [moveObj_none ha]; exact ⟨rfl, rfl⟩
    | some v => rw [moveObj_some ha]; exact ⟨rfl, rfl⟩
  induction h with
  | refl => exact ⟨r₀, rest, rfl, rfl, rfl⟩
  | push name packages _ ih =>
      obtain ⟨r, chunks, rfl, hlabel⟩ := ih
      exact ⟨r, _, rfl, hlabel⟩
  | @forth pre mid post a b x _ ih =>
      obtain ⟨r, chunks, heq, hlabel⟩ := ih
      cases pre with
      | nil =>
          obtain rfl : a = r := (List.cons.inj heq).1
          exact ⟨_, _, rfl, (hmove a b x).1.trans hlabel.1, (hmove a b x).2.trans hlabel.2⟩
      | cons p pre =>
          obtain rfl : p = r := (List.cons.inj heq).1
          exact ⟨p, _, rfl, hlabel⟩
  | back x _ ih =>
      obtain ⟨r, chunks, heq, hlabel⟩ := ih
      obtain rfl := (List.cons.inj heq).1
      exact ⟨_, _, rfl, hlabel⟩

/-- One bin of the packing becomes one chunk. -/
theorem packBin_moves {contentmeta : ObjectMetaSized} {k k' : Chunking} {bin : Bin}
    (h : packBin contentmeta k bin = .ok k') :
    Moves (k.remainder :: k.chunks) (k'.remainder :: k'.chunks) := by
  obtain ⟨objs, _, h⟩ := result_bind_eq_ok.mp h
  cases h
  exact moves_moveObjs _ _ _ _ (.push (binName bin) (bin.map (·.name)) .refl)

/-- **`process_mapping` only moves objects.** -/
theorem processMapping_moves {st : Statistics} {fuel : Nat} {k k' : Chunking}
    {contentmeta : ObjectMetaSized} {maxLayers : Option Nat} {prior : Option ImageManifest}
    (h : k.processMapping st fuel contentmeta maxLayers prior = .ok k') :
    Moves (k.remainder :: k.chunks) (k'.remainder :: k'.chunks) := by
  unfold Chunking.processMapping at h
  dsimp only at h
  split at h
  · exact nomatch h
  split at h
  · cases h; exact .refl
  obtain ⟨packing, _, h⟩ := result_bind_eq_ok.mp h
  obtain ⟨k₁, hfold, h⟩ := result_bind_eq_ok.mp h
  have hmoves : ∀ (bins : List Bin) (a b : Chunking), bins.foldlM (packBin contentmeta) a = .ok b →
      Moves (a.remainder :: a.chunks) (b.remainder :: b.chunks) := by
    intro bins
    induction bins with
    | nil => intro a b hab; cases hab; exact .refl
    | cons bin bins ih =>
        intro a b hab
        rw [List.foldlM_cons] at hab
        obtain ⟨k₂, hbin, hab⟩ := result_bind_eq_ok.mp hab
        exact (packBin_moves hbin).trans (ih k₂ b hab)
  split at h
  · exact nomatch h
  · cases h
    have hall := hmoves packing _ _ hfold
    exact hall

end Moves

-- ── The initial chunk ─────────────────────────────────────────────────────────

/-- The size of a content object. -/
def Objects.fileSize (o : Objects) (x : Checksum) : Nat := (o.files[x]?.map FileObject.size).getD 0

/-- One file of the walk is added to the chunk. -/
def addOccurrence (o : Objects) (chunk : Chunk) (p : Path × Checksum) : Chunk :=
  chunk.addFile p.2 (o.fileSize p.2) p.1

/-- The paths at which an object occurs, in order. -/
def pathsOf (occ : List (Path × Checksum)) (x : Checksum) : List Path :=
  occ.filterMap fun p => if p.2 = x then some p.1 else none

theorem pathsOf_snoc (occ : List (Path × Checksum)) (p : Path × Checksum) (x : Checksum) :
    pathsOf (occ ++ [p]) x = pathsOf occ x ++ if p.2 = x then [p.1] else [] := by
  unfold pathsOf
  rw [List.filterMap_append]
  by_cases h : p.2 = x
  · simp [h]
  · simp [h]

theorem mem_pathsOf {occ : List (Path × Checksum)} {x : Checksum} {p : Path} :
    p ∈ pathsOf occ x ↔ (p, x) ∈ occ := by
  unfold pathsOf
  rw [List.mem_filterMap]
  constructor
  · rintro ⟨⟨q, y⟩, hq, h⟩
    dsimp only at h
    split at h
    · next hy => cases h; subst hy; exact hq
    · exact nomatch h
  · intro h
    exact ⟨(p, x), h, if_pos rfl⟩

section Initial

variable (o : Objects)

/-- The chunk that holds all occurrences. -/
def initialChunk (occ : List (Path × Checksum)) : Chunk := occ.foldl (addOccurrence o) {}

theorem initialChunk_snoc (occ : List (Path × Checksum)) (p : Path × Checksum) :
    initialChunk o (occ ++ [p]) = addOccurrence o (initialChunk o occ) p := by
  unfold initialChunk
  rw [List.foldl_append]
  rfl

theorem getD_snd_of_content {m : ChunkMapping} {occ : List (Path × Checksum)} {x : Checksum} {n : Nat}
    (h : m[x]? = if pathsOf occ x = [] then none else some (n, pathsOf occ x)) :
    (m.getD x (0, [])).2 = pathsOf occ x := by
  rw [ExtTreeMap.getD_eq_getD_getElem?, h]
  by_cases hp : pathsOf occ x = []
  · rw [if_pos hp, hp]; rfl
  · rw [if_neg hp]; rfl

/-- **Every object is there with its size and all its paths.** -/
theorem initialChunk_content (occ : List (Path × Checksum)) (x : Checksum) :
    (initialChunk o occ).content[x]? =
      if pathsOf occ x = [] then none else some (o.fileSize x, pathsOf occ x) := by
  induction occ using List.reverseRecOn generalizing x with
  | nil => exact ExtTreeMap.lookup_empty x
  | append_singleton occ p ih =>
      rw [initialChunk_snoc, pathsOf_snoc]
      simp only [addOccurrence, Chunk.addFile]
      rw [ExtTreeMap.lookup_insert, getD_snd_of_content (ih p.2)]
      by_cases h : p.2 = x
      · subst h
        simp
      · simp only [if_neg h, List.append_nil]
        exact ih x

/-- Replacing a value by one of the same size. -/
theorem contentSize_replace {m : ChunkMapping} {k : Checksum} {v w : Nat × List Path}
    (hk : m[k]? = some v) (hw : w.1 = v.1) : contentSize (m.insert k w) = contentSize m := by
  rw [ExtTreeMap.insert_eq_insert_erase, contentSize_insert (ExtTreeMap.not_mem_erase m k), hw,
    ← contentSize_erase hk]

theorem initialChunk_sized (occ : List (Path × Checksum)) : (initialChunk o occ).Sized := by
  induction occ using List.reverseRecOn with
  | nil => rfl
  | append_singleton occ p ih =>
      have hx := initialChunk_content o occ p.2
      have hgetD := getD_snd_of_content hx
      rw [initialChunk_snoc]
      simp only [addOccurrence, Chunk.addFile, Chunk.Sized, hgetD]
      by_cases h : pathsOf occ p.2 = []
      · rw [if_pos h] at hx
        have hnew : p.2 ∉ (initialChunk o occ).content := by
          rw [ExtTreeMap.mem_iff_lookup, hx]
          exact nofun
        rw [if_pos (by rw [h]; rfl), contentSize_insert hnew, ih]
      · rw [if_neg h] at hx
        rw [if_neg (by simpa using h)]
        exact ih.trans (contentSize_replace
          (w := (o.fileSize p.2, pathsOf occ p.2 ++ [p.1])) hx rfl).symm

/-- The initial chunk has no name. -/
theorem initialChunk_label (occ : List (Path × Checksum)) :
    (initialChunk o occ).name = "" ∧ (initialChunk o occ).packages = [] := by
  induction occ using List.reverseRecOn with
  | nil => exact ⟨rfl, rfl⟩
  | append_singleton occ p ih => rw [initialChunk_snoc]; exact ih

theorem initialChunk_congr {o' : Objects} {occ : List (Path × Checksum)}
    (h : ∀ p ∈ occ, o'.fileSize p.2 = o.fileSize p.2) : initialChunk o' occ = initialChunk o occ := by
  induction occ using List.reverseRecOn with
  | nil => rfl
  | append_singleton occ p ih =>
      rw [initialChunk_snoc, initialChunk_snoc, ih (fun q hq => h q (by simp [hq])), addOccurrence,
        addOccurrence, h p (by simp)]

end Initial

section Generate

variable {lib : Libostree} {repo : Repo}

theorem generateFile_ends {path : Path} {f : String × Checksum} {chunk : Chunk}
    (hf : f.2 ∈ repo.files) :
    Ends (fun s => s.2 = chunk) (generateFile repo path f)
      (fun _ s => s.2 = addOccurrence repo.toObjects chunk (path.join f.1, f.2)) := by
  rintro ⟨gen, _⟩ rfl
  obtain ⟨x, hx⟩ := ExtTreeMap.mem_iff_lookup.mp hf
  unfold generateFile Repo.loadFile
  rw [hx, okOr_some, bind_of_ok (liftR_ok _ _)]
  refine ⟨⟨⟩, _, rfl, ?_⟩
  simp only [addOccurrence, fileSize, hx]
  rfl

theorem pushDirtree_ends {c : Checksum} {d : DirTree} {chunk : Chunk}
    (hd : repo.dirtrees[c]? = some d) :
    Ends (fun s => s.2 = chunk) (pushDirtree lib repo c) (fun a s => a = d ∧ s.2 = chunk) := by
  rintro ⟨gen, _⟩ rfl
  unfold pushDirtree Repo.loadDirtree
  rw [hd, okOr_some, bind_of_ok (liftR_ok _ _), bind_of_ok (modify_run _ _)]
  exact ⟨d, _, rfl, rfl, rfl⟩

theorem pushDirmeta_ends {c : Checksum} {chunk : Chunk} (hc : c ∈ repo.dirmetas) :
    Ends (fun s => s.2 = chunk) (pushDirmeta lib repo c) (fun _ s => s.2 = chunk) := by
  rintro ⟨gen, _⟩ rfl
  obtain ⟨m, hm⟩ := ExtTreeMap.mem_iff_lookup.mp hc
  unfold pushDirmeta Repo.loadDirmeta
  rw [bind_of_ok (get_run _)]
  split
  · exact ⟨⟨⟩, _, rfl, rfl⟩
  · rw [bind_of_ok (modify_run _ _), hm, okOr_some, bind_of_ok (liftR_ok _ _)]
    exact ⟨⟨⟩, _, rfl, rfl⟩

theorem foldl_flatMap_snoc {α : Type} (o : Objects) (g : α → List (Path × Checksum)) (pre : List α)
    (a : α) (chunk : Chunk) :
    ((pre ++ [a]).flatMap g).foldl (addOccurrence o) chunk
      = (g a).foldl (addOccurrence o) ((pre.flatMap g).foldl (addOccurrence o) chunk) := by
  rw [List.flatMap_append, List.foldl_append, List.flatMap_singleton]

/-- **The walk of `generate_chunking_recurse`** adds every occurrence below a tree. -/
theorem generateChunkingRecurse_ends {n : Nat} {path : Path} {c : Checksum} {d : DirTree}
    (hd : repo.dirtrees[c]? = some d) (hdepth : repo.DepthLt n c)
    (hstored : ∀ ty x, repo.Reaches c ty x → repo.Has ty x) (chunk : Chunk) :
    Ends (fun s => s.2 = chunk) (generateChunkingRecurse lib repo n path d)
      (fun _ s => s.2 = (repo.occurrences n false path c).foldl (addOccurrence repo.toObjects)
        chunk) := by
  induction n generalizing path c d chunk with
  | zero => exact hdepth.elim
  | succ n ih =>
      have hocc : repo.occurrences (n + 1) false path c
          = d.files.flatMap (fun f => [(path.join f.1, f.2)]) ++
            d.dirs.flatMap (fun s => repo.occurrences n false (path.join s.1) s.2.1) := by
        simp only [occurrences, hd, Bool.false_eq_true, false_and, if_false]
        rw [List.map_eq_flatMap]
      rw [hocc]
      simp only [List.foldl_append]
      refine Ends.bind (Ends.loop (fun pre (s : Generation × Chunk) => s.2 = (pre.flatMap
        (fun f : String × Checksum => [(path.join f.1, f.2)])).foldl
          (addOccurrence repo.toObjects) chunk) ?_) (fun _ => ?_)
      · intro pre f post hsplit
        simp only [foldl_flatMap_snoc]
        exact generateFile_ends (hstored .file f.2 (.file hd (by rw [hsplit]; simp)))
      · refine Ends.loop (fun pre (s : Generation × Chunk) => s.2 = (pre.flatMap
          (fun sub : String × Checksum × Checksum => repo.occurrences n false (path.join sub.1)
            sub.2.1)).foldl (addOccurrence repo.toObjects) ((d.files.flatMap
              (fun f => [(path.join f.1, f.2)])).foldl (addOccurrence repo.toObjects) chunk)) ?_
        intro pre sub post hsplit
        have hs : sub ∈ d.dirs := by rw [hsplit]; simp
        obtain ⟨d', hd'⟩ := ExtTreeMap.mem_iff_lookup.mp
          (hstored .dirTree sub.2.1 (.sub hd hs (.self _)))
        simp only [foldl_flatMap_snoc]
        refine Ends.bind (pushDirtree_ends hd') (fun a => ?_)
        rintro s ⟨rfl, hchunk⟩
        exact Ends.bind (ih hd' (hdepth d hd sub hs) (fun ty x hx => hstored ty x (.sub hd hs hx)) _)
          (fun _ => pushDirmeta_ends (hstored .dirMeta _ (.dirmeta hd hs))) s hchunk

/-- **`Chunking::new`** on a commit that is stored completely: a single chunk that holds
    every content object with its size and all its paths. -/
theorem chunkingNew_eq (lib : Libostree) {rev : String} {c : Checksum} {commit : Commit} {fuel : Nat}
    (hrev : repo.requireRev rev = .ok c) (hcommit : repo.commits[c]? = some commit)
    (hcomplete : repo.Complete commit) (hdepth : repo.DepthLt fuel commit.contents) :
    ∃ n, Chunking.new lib repo fuel rev = .ok
      { metadataSize := n
        remainder := initialChunk repo.toObjects
          (repo.occurrences fuel false [.rootDir] commit.contents) } := by
  obtain ⟨d, hd⟩ := ExtTreeMap.mem_iff_lookup.mp (hcomplete .dirTree _ (.inr (.self _)))
  have hgen : Ends (fun s => s.2 = {}) (generateChunking lib repo fuel commit) (fun _ s => s.2 =
      initialChunk repo.toObjects (repo.occurrences fuel false [.rootDir] commit.contents)) := by
    unfold generateChunking Repo.loadDirtree
    rw [hd, okOr_some]
    intro s hs
    rw [bind_of_ok (liftR_ok _ _)]
    refine Ends.bind (pushDirtree_ends hd) (fun _ => ?_) s hs
    rintro s ⟨_, hs⟩
    exact Ends.bind (pushDirmeta_ends (hcomplete .dirMeta _ (.inl ⟨rfl, rfl⟩)))
      (fun _ => generateChunkingRecurse_ends hd hdepth (fun ty x hx => hcomplete ty x (.inr hx)) _)
      s hs
  obtain ⟨_, ⟨gen, chunk⟩, hrun, hchunk⟩ := hgen ({}, {}) rfl
  refine ⟨gen.metadataSize, ?_⟩
  unfold Chunking.new Repo.loadCommit
  rw [hrev, bind_ok_eq, hcommit, okOr_some, bind_ok_eq, hrun]
  simp only at hchunk
  rw [hchunk]

end Generate

end OstreeExt
