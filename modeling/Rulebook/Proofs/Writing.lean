/-
What writing does to files. A path leads where it led before as long as the directories stay (`locate_of_directories`),
and neither writing a file nor making directories takes a directory away: a file is only written where no directory
stands, and a directory is only made where nothing stands.

`writeText_cases` is the whole of writing a text: it is refused and nothing changes, or the file is opened and holds the
bytes of the text, or it is opened, the text has no bytes, and the file is left empty. Making directories keeps all that
is there (`extends_makeDirectory`), and once they are made, making them again does nothing
(`makeDirectory_of_isDirectory`).
-/
import Rulebook.Files.Tree
import Rulebook.Proofs.Directory

namespace Rulebook

namespace FileTree

variable {t t' : FileTree}

/-! ## What stands where -/

theorem entryAt_put (t : FileTree) {spot : Spot} (hspot : spot ≠ []) (e : FileNode) (place : Spot) :
    (t.put spot e).entryAt place = if place = spot then some e else t.entryAt place := by
  by_cases hplace : place = spot
  · subst hplace
    simp [entryAt, put, hspot]
  · have hfilter : ∀ entries : List (Spot × FileNode),
        (entries.filter fun p => decide (p.1 ≠ spot)).lookup place = entries.lookup place := by
      intro entries
      induction entries with
      | nil => rfl
      | cons p entries ih =>
        rw [List.filter_cons]
        split
        · rw [List.lookup_cons, List.lookup_cons, ih]
        · next hp =>
          have hother : (place == p.1) = false := by
            have heq : p.1 = spot := by simpa using hp
            simpa [heq] using hplace
          rw [List.lookup_cons, hother, ih]
    have hother : (place == spot) = false := by simpa using hplace
    rw [if_neg hplace, entryAt, entryAt, put, List.lookup_cons, hother, hfilter]

/-- all directories of a tree stand in the other one too -/
structure KeepsDirectories (t t' : FileTree) : Prop where
  working : t'.working = t.working
  directories : ∀ place, t.entryAt place = some .directory → t'.entryAt place = some .directory

/-- all that stands in a tree stands in the other one too, which may have more directories but no more files -/
structure Extends (t t' : FileTree) : Prop where
  working : t'.working = t.working
  entries : ∀ place e, t.entryAt place = some e → t'.entryAt place = some e
  files : ∀ place content, t'.entryAt place = some (.file content) → t.entryAt place = some (.file content)

/-- every file of a tree has its content in the other one too -/
def KeepsFiles (t t' : FileTree) : Prop :=
  ∀ place content, t.entryAt place = some (.file content) → t'.entryAt place = some (.file content)

theorem Extends.refl (t : FileTree) : Extends t t := ⟨rfl, fun _ _ h => h, fun _ _ h => h⟩

theorem Extends.trans {t'' : FileTree} (h : Extends t t') (h' : Extends t' t'') : Extends t t'' where
  working := h'.working.trans h.working
  entries place e he := h'.entries place e (h.entries place e he)
  files place content hfile := h.files place content (h'.files place content hfile)

theorem Extends.keepsFiles (h : Extends t t') : KeepsFiles t t' := fun place _ he => h.entries place _ he

/-- files are kept from before directories are made as from after -/
theorem Extends.keepsFiles_iff {t'' : FileTree} (h : Extends t t') : KeepsFiles t t'' ↔ KeepsFiles t' t'' :=
  ⟨fun hkeeps place content hfile => hkeeps place content (h.files place content hfile),
    fun hkeeps place content hfile => hkeeps place content (h.entries place _ hfile)⟩

theorem keepsDirectories_put (t : FileTree) {spot : Spot} (hspot : t.entryAt spot ≠ some .directory) (hne : spot ≠ [])
    (e : FileNode) : KeepsDirectories t (t.put spot e) := by
  refine ⟨rfl, fun place hplace => ?_⟩
  rw [entryAt_put t hne, if_neg]
  · exact hplace
  · rintro rfl
    exact hspot hplace

/-- a file that is put somewhere is no directory -/
theorem keepsDirectories_of_put (t : FileTree) {spot : Spot} (hne : spot ≠ []) (content : Bytes) :
    KeepsDirectories (t.put spot (.file content)) t := by
  refine ⟨rfl, fun place hplace => ?_⟩
  rw [entryAt_put t hne] at hplace
  split at hplace
  · cases hplace
  · exact hplace

theorem extends_put (t : FileTree) {spot : Spot} (hspot : t.entryAt spot = none) (hne : spot ≠ []) :
    Extends t (t.put spot .directory) := by
  refine ⟨rfl, fun place e hplace => ?_, fun place content hplace => ?_⟩
  · rw [entryAt_put t hne, if_neg]
    · exact hplace
    · rintro rfl
      simp [hspot] at hplace
  · rw [entryAt_put t hne] at hplace
    split at hplace
    · cases hplace
    · exact hplace

/-! ## Where paths lead -/

theorem follow_of_directories (h : KeepsDirectories t t') {spot place : Spot} {names : List Text}
    (hfollow : t.follow spot names = .ok place) : t'.follow spot names = .ok place := by
  induction names generalizing spot with
  | nil => exact hfollow
  | cons name names ih =>
    unfold follow at hfollow ⊢
    split at hfollow
    · cases hfollow
    · cases hfollow
    · next hdirectory =>
      simp only [h.directories spot hdirectory]
      split
      · next hdots =>
        rw [if_pos hdots] at hfollow
        exact ih hfollow
      · next hdots =>
        rw [if_neg hdots] at hfollow
        split
        · next hlong => simp [hlong] at hfollow
        · next hshort =>
          rw [if_neg hshort] at hfollow
          exact ih hfollow

/-- a path leads to the same place as long as the directories stay -/
theorem locate_of_directories (h : KeepsDirectories t t') {p : Path} {place : Spot} (hp : t.locate p = .ok place) :
    t'.locate p = .ok place := by
  unfold locate at hp ⊢
  split
  · next hlong => simp [hlong] at hp
  · next hshort =>
    rw [if_neg hshort] at hp
    rw [h.working]
    exact follow_of_directories h hp

/-- a name that is too long is refused as before as long as the directories stay -/
theorem locate_tooLong_of_directories (h : KeepsDirectories t t') {p : Path} (hp : t.locate p = .error .nameTooLong) :
    t'.locate p = .error .nameTooLong := by
  have hfollow : ∀ (names : List Text) (spot : Spot), t.follow spot names = .error .nameTooLong →
      t'.follow spot names = .error .nameTooLong := by
    intro names
    induction names with
    | nil => exact fun _ h => nomatch h
    | cons name names ih =>
      intro spot hlong
      unfold follow at hlong ⊢
      split at hlong
      · cases hlong
      · cases hlong
      · next hdirectory =>
        simp only [h.directories spot hdirectory]
        split
        · next hdots =>
          rw [if_pos hdots] at hlong
          exact ih _ hlong
        · next hdots =>
          rw [if_neg hdots] at hlong
          split
          · rfl
          · next hshort =>
            rw [if_neg hshort] at hlong
            exact ih _ hlong
  unfold locate at hp ⊢
  split
  · rfl
  · next hshort =>
    rw [if_neg hshort] at hp
    rw [h.working]
    exact hfollow _ _ hp

/-- a name below a path leads to that name below the place of the path -/
theorem above_of_locate {p : Path} {n : Text} (hn : n ≠ Text.ofString "..") {spot : Spot}
    (hlocate : t.locate (p.join ⟨.working, [n]⟩) = .ok spot) :
    ∃ above, t.follow (if p.isAbsolute then [] else t.working) p.parts = .ok above ∧ spot = above ++ [n] := by
  unfold locate at hlocate
  split at hlocate
  · cases hlocate
  · rw [Path.join_working, follow_append] at hlocate
    cases habove : t.follow (if p.isAbsolute then [] else t.working) p.parts with
    | error fault =>
      rw [show Path.isAbsolute ⟨p.root, p.parts ++ [n]⟩ = p.isAbsolute from rfl, habove] at hlocate
      cases hlocate
    | ok above =>
      rw [show Path.isAbsolute ⟨p.root, p.parts ++ [n]⟩ = p.isAbsolute from rfl, habove] at hlocate
      exact ⟨above, rfl, eq_append_of_follow (List.forall_mem_singleton.2 hn) hlocate⟩

/-- two names below one path lead to two places -/
theorem ne_of_locate (h : KeepsDirectories t t') {p : Path} {n m : Text} (hn : n ≠ Text.ofString "..")
    (hm : m ≠ Text.ofString "..") (hne : n ≠ m) {spot place : Spot}
    (hspot : t.locate (p.join ⟨.working, [n]⟩) = .ok spot) (hplace : t'.locate (p.join ⟨.working, [m]⟩) = .ok place) :
    spot ≠ place := by
  obtain ⟨above, habove, rfl⟩ := above_of_locate hn hspot
  obtain ⟨above', habove', rfl⟩ := above_of_locate hm hplace
  rw [h.working, follow_of_directories h habove] at habove'
  obtain rfl := Except.ok.inj habove'
  exact fun heq => hne (List.singleton_inj.1 (List.append_cancel_left heq))

/-! ## Writing -/

def Opens (t : FileTree) (p : Path) : Prop := ∃ opened, t.write p [] = .ok opened

/-- a file that can be opened stands, or is made, at a place without a directory; whatever is written is put there -/
theorem Opens.spot {p : Path} (h : t.Opens p) : ∃ spot, t.locate p = .ok spot ∧ t.entryAt spot ≠ some .directory ∧
    spot ≠ [] ∧ ∀ content, t.write p content = .ok (t.put spot (.file content)) := by
  obtain ⟨opened, hopened⟩ := h
  unfold write at hopened
  split at hopened
  · cases hopened
  · next spot hlocate =>
    have htop : t.entryAt spot ≠ some .directory → spot ≠ [] := by
      rintro hspot rfl
      exact hspot rfl
    refine ⟨spot, hlocate, ?_⟩
    split at hopened
    · cases hopened
    · next old hentry =>
      have hnot : t.entryAt spot ≠ some .directory := by simp [hentry]
      exact ⟨hnot, htop hnot, fun content => by simp [write, hlocate, hentry]⟩
    · next hentry =>
      have hnot : t.entryAt spot ≠ some .directory := by simp [hentry]
      split at hopened
      · next hdirectory => exact ⟨hnot, htop hnot, fun content => by simp [write, hlocate, hentry, hdirectory]⟩
      · cases hopened

/-- a file can be opened that is there, or that can be made in a directory -/
theorem opens_iff {p : Path} : t.Opens p ↔ ∃ spot, t.locate p = .ok spot ∧
    ((∃ old, t.entryAt spot = some (.file old)) ∨
      (t.entryAt spot = none ∧ t.entryAt spot.dropLast = some .directory)) := by
  unfold Opens write
  cases hlocate : t.locate p with
  | error fault => simp
  | ok spot =>
    rcases hentry : t.entryAt spot with _ | _ | old
    · by_cases hdirectory : t.entryAt spot.dropLast = some .directory
      · simp [holdsDirectory, hentry, hdirectory]
      · simp [holdsDirectory, hentry, hdirectory]
    · simp [hentry]
    · simp [hentry]

/-- writing a file does not change which others can be opened -/
theorem opens_put_iff {p : Path} {spot : Spot} (hspot : t.entryAt spot ≠ some .directory) (hne : spot ≠ [])
    (content : Bytes) (hp : ∀ place, t.locate p = .ok place → place ≠ spot) :
    (t.put spot (.file content)).Opens p ↔ t.Opens p := by
  have hback := keepsDirectories_of_put t hne content
  have hforth := keepsDirectories_put t hspot hne (.file content)
  have hdirectory : ∀ place, (t.put spot (.file content)).entryAt place = some .directory ↔
      t.entryAt place = some .directory := fun place => ⟨hback.directories place, hforth.directories place⟩
  have hlocate : ∀ place, (t.put spot (.file content)).locate p = .ok place ↔ t.locate p = .ok place := fun place =>
    ⟨locate_of_directories hback, locate_of_directories hforth⟩
  rw [opens_iff, opens_iff]
  refine exists_congr fun place => ?_
  rw [hlocate, hdirectory]
  refine and_congr_right fun hplace => ?_
  rw [entryAt_put t hne, if_neg (hp place hplace)]

theorem read_iff {p : Path} {spot : Spot} (hp : t.locate p = .ok spot) (content : Bytes) :
    t.read p = .ok content ↔ t.entryAt spot = some (.file content) := by
  rw [read, hp]
  rcases hentry : t.entryAt spot with _ | _ | old
  · simp [hentry]
  · simp [hentry]
  · simp [hentry]

theorem read_put {p : Path} {spot : Spot} (hp : t.locate p = .ok spot) (hspot : t.entryAt spot ≠ some .directory)
    (hne : spot ≠ []) (content : Bytes) : (t.put spot (.file content)).read p = .ok content := by
  rw [read_iff (locate_of_directories (keepsDirectories_put t hspot hne _) hp), entryAt_put t hne, if_pos rfl]

/-- a file is read as before when another one is written -/
theorem read_put_other {p : Path} {spot place : Spot} {content : Bytes} (hp : t.locate p = .ok place)
    (hread : t.read p = .ok content) (hspot : t.entryAt spot ≠ some .directory) (hne : spot ≠ []) (hother : place ≠ spot)
    (e : FileNode) : (t.put spot e).read p = .ok content := by
  rw [read_iff (locate_of_directories (keepsDirectories_put t hspot hne e) hp), entryAt_put t hne, if_neg hother]
  exact (read_iff hp content).1 hread

/-- a file that is written is the only one to change -/
theorem keepsFiles_put_iff {spot : Spot} (hspot : t.entryAt spot ≠ some .directory) (hne : spot ≠ []) (content : Bytes) :
    KeepsFiles t (t.put spot (.file content)) ↔ ∀ old, t.entryAt spot = some (.file old) → old = content := by
  constructor
  · intro h old hold
    have hkept := h spot old hold
    rw [entryAt_put t hne, if_pos rfl] at hkept
    cases hkept
    rfl
  · intro h place old hold
    rw [entryAt_put t hne]
    split
    · next heq =>
      subst heq
      rw [h old hold]
    · exact hold

/-- writing a text: it is refused, or the file holds the text, or the text has no bytes and the file is empty -/
theorem writeText_cases (t : FileTree) (p : Path) (text : Text) :
    (¬ t.Opens p ∧ ∃ fault, t.writeText p text = (t, some (.refused fault))) ∨
      (t.Opens p ∧ ∃ opened fault, Utf8.encode text = .error fault ∧ t.write p [] = .ok opened ∧
        t.writeText p text = (opened, some (.unencodable fault))) ∨
      (t.Opens p ∧ ∃ written content, Utf8.encode text = .ok content ∧ t.write p content = .ok written ∧
        t.writeText p text = (written, none)) := by
  cases hopened : t.write p [] with
  | error fault =>
    refine .inl ⟨?_, fault, by rw [writeText, hopened]⟩
    rintro ⟨opened, hok⟩
    rw [hopened] at hok
    cases hok
  | ok opened =>
    have hopens : t.Opens p := ⟨opened, hopened⟩
    obtain ⟨spot, -, -, -, hwrite⟩ := hopens.spot
    cases hencode : Utf8.encode text with
    | error fault => exact .inr (.inl ⟨hopens, opened, fault, rfl, rfl, by simp only [writeText, hopened, hencode]⟩)
    | ok content =>
      refine .inr (.inr ⟨hopens, _, content, rfl, hwrite content, ?_⟩)
      simp only [writeText, hopened, hencode, hwrite content]

/-- a text that is written is put, in bytes, where the path leads -/
theorem put_of_writeText {p : Path} {text : Text} (h : t.writeText p text = (t', none)) : ∃ spot content,
    t.locate p = .ok spot ∧ t.entryAt spot ≠ some .directory ∧ spot ≠ [] ∧ Utf8.encode text = .ok content ∧
      t' = t.put spot (.file content) := by
  rcases t.writeText_cases p text with ⟨-, _, hrefused⟩ | ⟨-, _, _, -, -, hfailed⟩ |
    ⟨hopens, written, content, hencode, hput, hwritten⟩
  · cases h.symm.trans hrefused
  · cases h.symm.trans hfailed
  · cases h.symm.trans hwritten
    obtain ⟨spot, hlocate, hspot, hne, hwrite⟩ := hopens.spot
    exact ⟨spot, content, hlocate, hspot, hne, hencode, Except.ok.inj (hput.symm.trans (hwrite content))⟩

/-! ## Making directories -/

theorem extends_makeOne {p : Path} (h : t.makeOne p = .ok t') : Extends t t' := by
  unfold makeOne at h
  split at h
  · cases h
  · next spot _ =>
    split at h
    · cases h
    · next hentry =>
      split at h
      · cases h
        refine extends_put t hentry ?_
        rintro rfl
        cases hentry
      · cases h

theorem orThere_fst (t : FileTree) (p : Path) (f : SystemFault) : (t.orThere p f).1 = t := by
  unfold orThere
  split <;> rfl

theorem extends_makeUp (t : FileTree) (root : Root) (names : List Text) : Extends t (t.makeUp root names).1 := by
  induction names generalizing t with
  | nil =>
    rw [makeUp, orThere_fst]
    exact .refl t
  | cons name above ih =>
    rw [makeUp]
    split
    · next made hmade => exact extends_makeOne hmade
    · have habove := ih t
      split
      · next t₁ problem hup =>
        rw [hup] at habove
        exact habove
      · next t₁ hup =>
        rw [hup] at habove
        split
        · next made hmade => exact habove.trans (extends_makeOne hmade)
        · exact habove
        · rw [orThere_fst]
          exact habove
    · rw [orThere_fst]
      exact .refl t

/-- making directories takes nothing away and adds no files -/
theorem extends_makeDirectory (t : FileTree) (p : Path) : Extends t (t.makeDirectory p).1 :=
  extends_makeUp t p.root p.parts.reverse

/-- a directory that has been made is there -/
theorem isDirectory_of_makeOne {p : Path} (h : t.makeOne p = .ok t') : t'.isDirectory p = true := by
  unfold makeOne at h
  split at h
  · cases h
  · next spot hlocate =>
    split at h
    · cases h
    · next hentry =>
      have hne : spot ≠ [] := by
        rintro rfl
        cases hentry
      have hspot : t.entryAt spot ≠ some .directory := by simp [hentry]
      split at h
      · cases h
        have hthere := locate_of_directories (keepsDirectories_put t hspot hne .directory) hlocate
        simp [isDirectory, hthere, holdsDirectory, entryAt_put t hne]
      · cases h

theorem isDirectory_of_orThere {p : Path} {f : SystemFault} (h : t.orThere p f = (t', none)) : t'.isDirectory p = true := by
  unfold orThere at h
  split at h
  · next hthere =>
    cases h
    exact hthere
  · cases h

theorem isDirectory_of_makeUp {root : Root} {names : List Text} (h : t.makeUp root names = (t', none)) :
    t'.isDirectory ⟨root, names.reverse⟩ = true := by
  cases names with
  | nil => exact isDirectory_of_orThere h
  | cons name above =>
    rw [makeUp] at h
    split at h
    · next made hmade =>
      cases h
      exact isDirectory_of_makeOne hmade
    · split at h
      · cases h
      · split at h
        · next made hmade =>
          cases h
          exact isDirectory_of_makeOne hmade
        · cases h
        · exact isDirectory_of_orThere h
    · exact isDirectory_of_orThere h

/-- once directories have been made the last one is there -/
theorem isDirectory_of_makeDirectory {p : Path} (h : t.makeDirectory p = (t', none)) : t'.isDirectory p = true := by
  have hthere := isDirectory_of_makeUp h
  rwa [List.reverse_reverse] at hthere

/-- a directory that is there is not made again -/
theorem makeDirectory_of_isDirectory {p : Path} (h : t.isDirectory p = true) : t.makeDirectory p = (t, none) := by
  obtain ⟨spot, hlocate, hentry⟩ : ∃ spot, t.locate p = .ok spot ∧ t.entryAt spot = some .directory := by
    unfold isDirectory at h
    split at h
    · cases h
    · next spot hlocate => exact ⟨spot, hlocate, by simpa [holdsDirectory] using h⟩
  have hmade : t.makeOne p = .error .alreadyThere := by
    rw [makeOne, hlocate]
    simp only [hentry]
  obtain ⟨root, names, rfl⟩ : ∃ root names, p = ⟨root, List.reverse names⟩ := ⟨p.root, p.parts.reverse, by simp⟩
  rw [makeDirectory, List.reverse_reverse]
  cases names with
  | nil => exact if_pos h
  | cons name above =>
    rw [makeUp, hmade]
    simp only [orThere, if_pos h]

end FileTree

end Rulebook
