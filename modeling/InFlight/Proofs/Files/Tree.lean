import InFlight.Files.Tree
import InFlight.Proofs.Files.Path
/-!
Files that come and go leave every path where it leads, and every other file as it is.
-/
namespace InFlight.Tree

section Walk

variable {t : Tree} {place : Place}

theorem walk?_append (t : Tree) (place : Place) (a b : List (List Char)) :
    t.walk? place (a ++ b) = (t.walk? place a).bind fun p => t.walk? p b := by
  induction a generalizing place with
  | nil => rfl
  | cons piece a ih =>
    simp only [List.cons_append, walk?]
    repeat' split
    · exact ih place
    · exact ih place.dropLast
    · exact ih _
    · rfl
    · rfl

theorem walk?_singleton {piece : List Char} {p : Place} (counts : Path.isTrivial piece = false)
    (plain : Path.isParent piece = false) (h : t.walk? place [piece] = some p) :
    t.isDirectoryAt place ∧ p = place ++ [String.ofList piece] := by
  simp only [walk?, counts, plain] at h
  split at h
  · rename_i directory
    simp only [Bool.false_eq_true, if_false] at h
    split at h
    · exact ⟨directory, (Option.some.inj h).symm⟩
    · cases h
  · cases h

/-- Pieces that mean nothing lead nowhere else. -/
theorem eq_of_walk?_trivial {pieces : List (List Char)}
    (nothing : ∀ b ∈ pieces, Path.isTrivial b) {p : Place} (h : t.walk? place pieces = some p) :
    p = place := by
  induction pieces generalizing place with
  | nil => exact (Option.some.inj h).symm
  | cons piece pieces ih =>
    obtain ⟨first, others⟩ := List.forall_mem_cons.mp nothing
    simp only [walk?, first, if_true] at h
    split at h
    · exact ih others h
    · cases h

def start (t : Tree) (path : String) : Place := if path.toList.head? = some '/' then []
    else t.current

theorem place?_eq_some_iff {path : String} {p : Place} : t.place? path = some p ↔
    path.toList ≠ [] ∧ t.walk? (t.start path) (Path.pieces path.toList) = some p := by
  unfold place? start
  split
  · rename_i empty
    have nothing : path.toList = [] := by simpa using empty
    simp [nothing]
  · rename_i some_text
    have something : path.toList ≠ [] := by simpa using some_text
    simp [something]

/-- The last name on the way is the name of the path. -/
theorem getLast?_of_place? {path : String} {name : List Char} {p : Place}
    (named : Path.fileName? path.toList = some name) (h : t.place? path = some p) :
    p.getLast? = some (String.ofList name) := by
  obtain ⟨front, back, split, nothing, counts, plain⟩ := Path.exists_pieces_of_fileName? named
  obtain ⟨-, walked⟩ := place?_eq_some_iff.mp h
  rw [split, ← List.singleton_append, walk?_append] at walked
  obtain ⟨dir, -, walked⟩ := Option.bind_eq_some_iff.mp walked
  rw [walk?_append] at walked
  obtain ⟨q, at_name, walked⟩ := Option.bind_eq_some_iff.mp walked
  obtain rfl := eq_of_walk?_trivial nothing walked
  obtain ⟨-, rfl⟩ := walk?_singleton counts plain at_name
  simp

end Walk

section Change

variable {t t' : Tree} {p q : Place} {path : String}

theorem lookup_filter_ne (h : q ≠ p) (entries : List (Place × Entry)) :
    (entries.filter fun e => e.1 ≠ p).lookup q = entries.lookup q := by
  induction entries with
  | nil => rfl
  | cons e entries ih =>
    obtain ⟨r, entry⟩ := e
    by_cases dropped : r = p
    · have other : (q == r) = false := by simpa [dropped] using h
      rw [List.filter_cons_of_neg (by simpa using dropped), ih, List.lookup_cons, other]
    · rw [List.filter_cons_of_pos (by simpa using dropped), List.lookup_cons, List.lookup_cons, ih]

theorem entry?_put_self (t : Tree) (p : Place) (e : Entry) : entry? (t.put p e) p = some e := by
  simp [ entry?, put]

theorem entry?_put_of_ne (t : Tree) (h : q ≠ p) (e : Entry) :
    entry? (t.put p e) q = t.entry? q := by
  have other : (q == p) = false := by simpa using h
  simp only [ entry?, put, List.lookup_cons, other]
  exact lookup_filter_ne h t.entries

theorem entry?_erase_self (t : Tree) (p : Place) : entry? (t.erase p) p = none := by
  refine List.lookup_eq_none_iff.mpr fun e among => ?_
  have kept : e.1 ≠ p := by simpa using List.of_mem_filter among
  simpa using kept.symm

theorem entry?_erase_of_ne (t : Tree) (h : q ≠ p) : entry? (t.erase p) q = t.entry? q :=
  lookup_filter_ne h t.entries

theorem ne_nil_of_noDirectory (h : t.isDirectoryAt p = false) : p ≠ [] := by
  rintro rfl
  cases h

theorem isDirectoryAt_eq_false (some_name : p ≠ [])
    (h : ∀ modified, t.entry? p ≠ some (.directory modified)) :
    t.isDirectoryAt p = false := by
  unfold isDirectoryAt
  split
  · exact absurd rfl some_name
  · rename_i directory
    exact absurd directory (h _)
  · rfl

theorem isDirectoryAt_congr (h : t'.entry? p = t.entry? p) :
    t'.isDirectoryAt p = t.isDirectoryAt p := by
  unfold isDirectoryAt
  rw [h]

/-- One tree is another save for the files that stand at some places: directories are the same, and
so is every entry elsewhere. -/
structure SameBut (places : Place → Prop) (t t' : Tree) : Prop where
  current : t'.current = t.current
  isDirectoryAt : ∀ q, t'.isDirectoryAt q = t.isDirectoryAt q
  elsewhere : ∀ q, ¬ places q → t'.entry? q = t.entry? q

section SameBut

variable {t'' : Tree} {places others : Place → Prop}

theorem SameBut.refl (places : Place → Prop) (t : Tree) :
    SameBut places t t := ⟨rfl, fun _ => rfl, fun _ _ => rfl⟩

theorem SameBut.trans (h : SameBut places t t') (h' : SameBut places t' t'') :
    SameBut places t t'' where
  current := h'.current.trans h.current
  isDirectoryAt q := (h'.isDirectoryAt q).trans (h.isDirectoryAt q)
  elsewhere q aside := (h'.elsewhere q aside).trans (h.elsewhere q aside)

theorem SameBut.mono (h : SameBut places t t') (wider : ∀ q, places q → others q) :
    SameBut others t t' :=
  ⟨h.current, h.isDirectoryAt, fun q aside => h.elsewhere q fun among => aside (wider q among)⟩

theorem SameBut.walk? (h : SameBut places t t') (place : Place) (pieces : List (List Char)) :
    t'.walk? place pieces = t.walk? place pieces := by
  induction pieces generalizing place with
  | nil => rfl
  | cons piece pieces ih => simp only [Tree.walk?, h.isDirectoryAt, ih]

theorem SameBut.place? (h : SameBut places t t') (path : String) :
    t'.place? path = t.place? path := by
  simp only [Tree.place?, h.current, h.walk?]

theorem SameBut.isDirectory (h : SameBut places t t') (path : String) :
    t'.isDirectory path = t.isDirectory path := by
  unfold Tree.isDirectory
  rw [h.place?, funext h.isDirectoryAt]

theorem SameBut.bind_entry (h : SameBut places t t')
    (aside : ∀ q, t.place? path = some q → ¬ places q) :
    (t'.place? path).bind t'.entry? = (t.place? path).bind t.entry? := by
  rw [h.place?]
  cases there : t.place? path with
  | none => rfl
  | some q => exact h.elsewhere q (aside q there)

theorem SameBut.content? (h : SameBut places t t')
    (aside : ∀ q, t.place? path = some q → ¬ places q) :
    t'.content? path = t.content? path := by
  unfold Tree.content?
  rw [h.bind_entry aside]

theorem SameBut.modified? (h : SameBut places t t')
    (aside : ∀ q, t.place? path = some q → ¬ places q) :
    t'.modified? path = t.modified? path := by
  unfold Tree.modified?
  rw [h.bind_entry aside]

end SameBut

/-- The places that some paths lead to. -/
def LeadsTo (t : Tree) (paths : List String) (q : Place) :
    Prop := ∃ path ∈ paths, t.place? path = some q

theorem SameBut.leadsTo {places : Place → Prop} (h : SameBut places t t') (paths : List String) :
    t'.LeadsTo paths = t.LeadsTo paths := by
  funext q
  simp only [LeadsTo, h.place?]

theorem LeadsTo.mono {few many : List String} (h : few ⊆ many) (q : Place)
    (leads : t.LeadsTo few q) :
    t.LeadsTo many q := by
  obtain ⟨path, among, there⟩ := leads
  exact ⟨path, h among, there⟩

def IsNested (t : Tree) : Prop := ∀ q, t.isDirectoryAt q → t.isDirectoryAt q.dropLast

theorem SameBut.isNested {places : Place → Prop} (h : SameBut places t t') (nested : t.IsNested) :
    t'.IsNested := by
  intro q directory
  rw [h.isDirectoryAt] at directory ⊢
  exact nested q directory

theorem isNested_of_entries (h : ∀ e ∈ t.entries, t.isDirectoryAt e.1.dropLast) : t.IsNested := by
  intro q directory
  cases q with
  | nil => rfl
  | cons name q =>
    unfold isDirectoryAt at directory
    split at directory
    · contradiction
    · rename_i modified entry _
      obtain ⟨before, behind, split, -⟩ := List.lookup_eq_some_iff.mp entry
      exact h (name :: q, .directory modified) (by simp [split])
    · cases directory

structure ChangedAt (p : Place) (t t' : Tree) : Prop where
  current : t'.current = t.current
  noDirectory : t.isDirectoryAt p = false
  stillNone : t'.isDirectoryAt p = false
  elsewhere : ∀ q, q ≠ p → t'.entry? q = t.entry? q

theorem changedAt_put (h : t.isDirectoryAt p = false) (content : Content) (now : Int) :
    ChangedAt p t (t.put p (.file content now)) where
  current := rfl
  noDirectory := h
  stillNone := isDirectoryAt_eq_false (ne_nil_of_noDirectory h) fun _ => by simp [entry?_put_self]
  elsewhere _ other := entry?_put_of_ne t other _

theorem changedAt_erase (h : t.isDirectoryAt p = false) : ChangedAt p t (t.erase p) where
  current := rfl
  noDirectory := h
  stillNone := isDirectoryAt_eq_false (ne_nil_of_noDirectory h) fun _ => by simp [entry?_erase_self]
  elsewhere _ other := entry?_erase_of_ne t other

theorem ChangedAt.isDirectoryAt (h : ChangedAt p t t') (q : Place) :
    t'.isDirectoryAt q = t.isDirectoryAt q := by
  by_cases same : q = p
  · rw [same, h.noDirectory, h.stillNone]
  · exact isDirectoryAt_congr (h.elsewhere q same)

theorem ChangedAt.sameBut (h : ChangedAt p t t') : SameBut (· = p) t t' :=
  ⟨h.current, h.isDirectoryAt, h.elsewhere⟩

theorem ChangedAt.place? (h : ChangedAt p t t') (path : String) : t'.place? path = t.place? path :=
  h.sameBut.place? path

theorem ChangedAt.content? (h : ChangedAt p t t') (other : t.place? path ≠ some p) :
    t'.content? path = t.content? path :=
  h.sameBut.content? fun _ there same => other (same ▸ there)

theorem ChangedAt.modified? (h : ChangedAt p t t') (other : t.place? path ≠ some p) :
    t'.modified? path = t.modified? path :=
  h.sameBut.modified? fun _ there same => other (same ▸ there)

theorem content?_put (here : t.place? path = some p) (h : t.isDirectoryAt p = false)
    (content : Content) (now : Int) :
    (t.put p (.file content now)).content? path = some content := by
  unfold Tree.content?
  rw [(changedAt_put h content now).place?, here, Option.bind_some, entry?_put_self]

theorem modified?_put (here : t.place? path = some p) (h : t.isDirectoryAt p = false)
    (content : Content) (now : Int) :
    (t.put p (.file content now)).modified? path = some now := by
  unfold Tree.modified?
  rw [(changedAt_put h content now).place?, here, Option.bind_some, entry?_put_self]
  rfl

theorem content?_erase (here : t.place? path = some p) (h : t.isDirectoryAt p = false) :
    (t.erase p).content? path = none := by
  unfold Tree.content?
  rw [(changedAt_erase h).place?, here, Option.bind_some, entry?_erase_self]

theorem write?_eq_some_iff {content : Content} {now : Int} : t.write? path content now = some t' ↔
    ∃ p, t.place? path = some p ∧ t.isDirectoryAt p = false ∧ t' = t.put p (.file content now) := by
  unfold write?
  cases t.place? path with
  | none => simp
  | some p =>
    cases directory : t.isDirectoryAt p with
    | true => simp [directory]
    | false => simpa [directory] using eq_comm

theorem write?_eq_put (here : t.place? path = some p) (file : t.isDirectoryAt p = false)
    (content : Content) (now : Int) :
    t.write? path content now = some (t.put p (.file content now)) :=
  write?_eq_some_iff.mpr ⟨p, here, file, rfl⟩

def IsWritable (t : Tree) (path : String) : Prop := ∃ p, t.place? path = some p ∧
    t.isDirectoryAt p = false

theorem SameBut.isWritable {places : Place → Prop} (h : SameBut places t t') (path : String) :
    t'.IsWritable path ↔ t.IsWritable path := by
  simp only [IsWritable, h.place?, h.isDirectoryAt]

theorem isWritable_of_write? {content : Content} {now : Int}
    (h : t.write? path content now = some t') :
    t.IsWritable path := by
  obtain ⟨p, here, file, -⟩ := write?_eq_some_iff.mp h
  exact ⟨p, here, file⟩

theorem write?_ne_none (h : t.IsWritable path) (content : Content) (now : Int) :
    t.write? path content now ≠ none := by
  obtain ⟨p, here, file⟩ := h
  rw [write?_eq_put here file]
  nofun

/-- A write changes the file at its path and no other. -/
theorem sameBut_of_write? {content : Content} {now : Int}
    (h : t.write? path content now = some t') :
    SameBut (t.LeadsTo [path]) t t' := by
  obtain ⟨p, here, file, rfl⟩ := write?_eq_some_iff.mp h
  refine (changedAt_put file content now).sameBut.mono fun q same =>
    ⟨path, List.mem_singleton_self path, ?_⟩
  rw [here, same]

theorem content?_of_write? {content : Content} {now : Int}
    (h : t.write? path content now = some t') :
    t'.content? path = some content := by
  obtain ⟨p, here, file, rfl⟩ := write?_eq_some_iff.mp h
  exact content?_put here file content now

/-- After a write every path shows what it showed before, unless it leads to where the write
went. -/
theorem content?_eq_or_of_write? {content : Content} {now : Int}
    (h : t.write? path content now = some t') (other : String) :
    t'.content? other = t.content? other ∨
      t.place? path = t.place? other ∧ t'.content? other = some content := by
  have same := sameBut_of_write? h
  by_cases shared : t.place? path = t.place? other
  · right
    refine ⟨shared, ?_⟩
    rw [← content?_of_write? h]
    unfold Tree.content?
    rw [same.place?, same.place?, shared]
  · left
    apply same.content?
    rintro q there ⟨_, among, here⟩
    obtain rfl := List.mem_singleton.mp among
    exact shared (here.trans there.symm)

end Change

section Beside

variable {t : Tree} {path : String} {name : List Char} {p q : Place}

/-- A name behind a path leads on from the place of the path. -/
theorem place?_join (slashless : '/' ∉ name) (here : t.place? path = some p) :
    t.place? (String.ofList (Path.join path.toList name)) = t.walk? p [name] := by
  obtain ⟨some_text, walked⟩ := place?_eq_some_iff.mp here
  have relative : name.head? ≠ some '/' := fun head => slashless (List.mem_of_mem_head? head)
  have leads_on (s : List Char) (added : Path.join path.toList name = path.toList ++ s)
      (walk : t.walk? (t.start path) (Path.pieces (path.toList ++ s)) = t.walk? p [name]) :
      t.place? (String.ofList (Path.join path.toList name)) = t.walk? p [name] := by
    have same_start : t.start (String.ofList (path.toList ++ s)) = t.start path := by
      unfold start
      rw [String.toList_ofList, List.head?_append_of_ne_nil _ some_text]
    rw [added]
    ext q
    rw [place?_eq_some_iff, String.toList_ofList, same_start, walk]
    simp [some_text]
  by_cases slash : path.toList.getLast? = some '/'
  · obtain ⟨dir, ends⟩ := List.getLast?_eq_some_iff.mp slash
    refine leads_on name (by simp [Path.join, relative, slash]) ?_
    rw [ends, Path.pieces_append_slash, walk?_append] at walked
    obtain ⟨d, to_dir, behind⟩ := Option.bind_eq_some_iff.mp walked
    obtain rfl : p = d := eq_of_walk?_trivial (by simp [Path.pieces, Path.isTrivial]) behind
    rw [ends, List.append_assoc, List.singleton_append, Path.pieces_append_slash,
      Path.pieces_of_not_mem slashless, walk?_append, to_dir, Option.bind_some]
  · refine leads_on ('/' :: name) (by simp [Path.join, relative, slash, some_text]) ?_
    rw [Path.pieces_append_slash, Path.pieces_of_not_mem slashless, walk?_append, walked,
      Option.bind_some]

/-- A file that can be written into a directory has a plain name, which ends its place. -/
theorem place?_join_of_write? {t' : Tree} {content : Content} {now : Int} (nested : t.IsNested)
    (slashless : '/' ∉ name) (here : t.place? path = some p) (directory : t.isDirectoryAt p)
    (h : t.write? (String.ofList (Path.join path.toList name)) content now = some t') :
    Path.IsPlain name ∧ t.place? (String.ofList (Path.join path.toList name)) =
      some (p ++ [String.ofList name]) := by
  obtain ⟨q, there, file, -⟩ := write?_eq_some_iff.mp h
  rw [there]
  rw [place?_join slashless here] at there
  cases counts : Path.isTrivial name with
  | true =>
    simp only [walk?, directory, counts, if_true, Option.some.injEq] at there
    simp [← there, directory] at file
  | false =>
    cases noParent : Path.isParent name with
    | true =>
      simp only [walk?, directory, counts, noParent, if_true, Bool.false_eq_true, if_false,
        Option.some.injEq] at there
      simp [← there, nested p directory] at file
    | false =>
      obtain ⟨-, rfl⟩ := walk?_singleton counts noParent there
      exact ⟨⟨slashless, counts, noParent⟩, rfl⟩

/-- The way to a file beside a path that has no name leads through the place of that path, as a
directory. -/
theorem isDirectoryAt_of_place?_join (plain : Path.IsPlain name) (here : t.place? path = some p)
    (there : t.place? (String.ofList (Path.join path.toList name)) = some q) :
    t.isDirectoryAt p := by
  rw [place?_join plain.slashless here] at there
  exact (walk?_singleton plain.counts plain.noParent there).1

/-- A file beside a file has another place, if it has another name. -/
theorem place?_withFileName_ne (plain : Path.IsPlain name)
    (other : Path.fileName? path.toList ≠ some name) (here : t.place? path = some p)
    (file : p = [] ∨ t.isDirectoryAt p = false) :
    t.place? (String.ofList (Path.withFileName path.toList name)) ≠ some p := by
  intro there
  have last : p.getLast? = some (String.ofList name) := by
    obtain ⟨front, split⟩ := Path.exists_pieces_withFileName plain.slashless path.toList
    obtain ⟨-, walked⟩ := place?_eq_some_iff.mp there
    rw [String.toList_ofList, split, walk?_append] at walked
    obtain ⟨dir, -, walked⟩ := Option.bind_eq_some_iff.mp walked
    obtain ⟨-, rfl⟩ := walk?_singleton plain.counts plain.noParent walked
    simp
  rcases file with rfl | file
  · cases last
  · cases named : Path.fileName? path.toList with
    | some n =>
      have same : String.ofList n = String.ofList name :=
        Option.some.inj ((getLast?_of_place? named here).symm.trans last)
      exact other (by rw [named, String.ofList_injective same])
    | none =>
      have joined : Path.withFileName path.toList name = Path.join path.toList name := by
        simp [Path.withFileName, named]
      rw [joined] at there
      simp [isDirectoryAt_of_place?_join plain here there] at file

end Beside

end InFlight.Tree
