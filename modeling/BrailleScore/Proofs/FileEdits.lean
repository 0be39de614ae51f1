import BrailleScore.Files
import BrailleScore.Proofs.Outcome
import BrailleScore.Proofs.FileLaws

/-!
# Writing in a tree of files

A text is put where a path leads. It is then the content of that file, no other file changes, and
the path leads to the same file as before, although the folders that it passes are known from the
files alone. So trees are a lawful file system.
-/

namespace BrailleScore

namespace Files

/-- Where a path has led if that is no folder. -/
def Place.at? : Place → Option Location
  | file location _ => some location
  | vacant location => some location
  | folder _ => none

variable {files : Files} {location l : Location} {text : String}

/-! ### One file more or less -/

lemma lookup_map_replace (entries : List (Location × String)) (location other : Location)
    (text : String) :
    (entries.map fun entry => if entry.1 = location then (location, text) else entry).lookup other =
      if other = location then (entries.lookup other).map fun _ => text
      else entries.lookup other := by
  induction entries with
  | nil => simp
  | cons entry entries ih =>
    obtain ⟨key, old⟩ := entry
    rw [List.map_cons]
    by_cases hkey : other = key
    · subst hkey
      by_cases hother : other = location
      · simp [hother]
      · simp [hother]
    · have hne : (other == key) = false := beq_false_of_ne hkey
      by_cases hkeyloc : key = location
      · subst hkeyloc
        simp only [if_true, List.lookup_cons, hne, ih]
      · simp only [hkeyloc, if_false, List.lookup_cons, hne, ih]

@[simp] theorem content?_put (files : Files) (location other : Location) (text : String) :
    (files.put location text).content? other =
      if other = location then some text else files.content? other := by
  unfold put content?
  split
  case isTrue hsome =>
    rw [lookup_map_replace]
    split
    case isTrue hother =>
      obtain ⟨old, hold⟩ := Option.isSome_iff_exists.mp hsome
      rw [hother, hold]
      rfl
    case isFalse => rfl
  case isFalse hnone =>
    rw [List.lookup_append]
    by_cases hother : other = location
    · rw [if_pos hother, hother, Option.not_isSome_iff_eq_none.mp hnone]
      simp
    · have hne : (other == location) = false := beq_false_of_ne hother
      simp [hother, List.lookup_cons, hne]

lemma lookAt_put_self (files : Files) (location : Location) (text : String) :
    (files.put location text).lookAt location = .file location text := by
  have hcontent := content?_put files location location text
  rw [if_pos rfl, content?] at hcontent
  rw [lookAt, hcontent]

lemma at?_lookAt (h : (files.lookAt l).at? = some location) : l = location := by
  unfold lookAt at h
  split at h
  · exact Option.some.inj h
  · split at h
    · cases h
    · exact Option.some.inj h

lemma isFolder_put (h : files.isFolder l) : (files.put location text).isFolder l := by
  unfold isFolder at h ⊢
  rw [List.any_eq_true] at h ⊢
  obtain ⟨m, hm, hprefix⟩ := h
  refine ⟨m, ?_, hprefix⟩
  unfold put
  split
  · simp only [List.map_map, List.mem_append, List.mem_cons] at hm ⊢
    refine hm.imp_right fun hkey => ?_
    obtain ⟨entry, hentry, rfl⟩ := List.mem_map.mp hkey
    refine List.mem_map.mpr ⟨entry, hentry, ?_⟩
    dsimp only [Function.comp_apply]
    split
    case isTrue hkey => exact hkey.symm
    case isFalse => rfl
  · rw [List.map_append, ← List.append_assoc]
    exact List.mem_append_left _ hm

/-- Folders stay folders when a file is written elsewhere. -/
lemma lookAt_put_of_at?_eq_none (hfolder : (files.lookAt l).at? = none) (hne : l ≠ location) :
    (files.put location text).lookAt l = files.lookAt l := by
  have hcontent := content?_put files location l text
  rw [if_neg hne, content?, content?] at hcontent
  unfold lookAt at hfolder ⊢
  rw [hcontent]
  split
  case h_1 => rfl
  case h_2 hnone =>
    rw [hnone] at hfolder
    dsimp only at hfolder
    split at hfolder
    case isTrue hthere => rw [if_pos hthere, if_pos (isFolder_put hthere)]
    case isFalse => cases hfolder

/-! ### Following a path -/

/-- A step looks at one location, or it does not depend on the files and leads to no file. -/
lemma step_cases (place : Place) (name : List Char) :
    (∃ l, ∀ files : Files, files.step place name = .ok (files.lookAt l)) ∨
      ∃ x : Except Obstacle Place, (∀ files : Files, files.step place name = x) ∧
        ∀ next, x = .ok next → next.at? = none := by
  cases place with
  | folder location =>
    by_cases hhere : name = ['.']
    · refine .inr ⟨.ok (.folder location), fun files => if_pos hhere, ?_⟩
      rintro _ ⟨⟩
      rfl
    · by_cases hparent : name = ['.', '.']
      · refine .inr ⟨.ok (.folder location.dropLast),
          fun files => (if_neg hhere).trans (if_pos hparent), ?_⟩
        rintro _ ⟨⟩
        rfl
      · by_cases hlong : Path.longestName < Path.bytes name
        · exact .inr ⟨.error .longName, fun files =>
            (if_neg hhere).trans ((if_neg hparent).trans (if_pos hlong)), nofun⟩
        · exact .inl ⟨location ++ [name], fun files =>
            (if_neg hhere).trans ((if_neg hparent).trans (if_neg hlong))⟩
  | file location text => exact .inr ⟨.error .notFolder, fun _ => rfl, nofun⟩
  | vacant location => exact .inr ⟨.error .missing, fun _ => rfl, nofun⟩

/-- A file, or the place of one, ends a path. -/
lemma foldlM_step_of_at? {place final : Place} {names : List (List Char)}
    (hplace : place.at? = some location) (h : names.foldlM files.step place = .ok final) :
    names = [] ∧ place = final := by
  cases names with
  | nil => exact ⟨rfl, Except.ok.inj h⟩
  | cons name names =>
    rw [List.foldlM_cons] at h
    cases place <;> cases hplace <;> cases h

/-- What a path leads to is what there is at its location, and once a text is written there it
leads to that. -/
theorem foldlM_step_put (text : String) {place final : Place} {names : List (List Char)}
    (hplace : place.at? = none) (hfinal : final.at? = some location)
    (h : names.foldlM files.step place = .ok final) :
    files.lookAt location = final ∧
      names.foldlM (files.put location text).step place = .ok (.file location text) := by
  induction names generalizing place with
  | nil =>
    obtain rfl := Except.ok.inj h
    rw [hplace] at hfinal
    cases hfinal
  | cons name names ih =>
    rw [List.foldlM_cons] at h ⊢
    obtain ⟨l, hl⟩ | ⟨x, hx, hnone⟩ := step_cases place name
    · rw [hl] at h ⊢
      cases hlook : (files.lookAt l).at? with
      | none =>
        obtain ⟨hthere, hput⟩ := ih hlook h
        -- There is no file at a folder that is passed.
        have hne : l ≠ location := by
          rintro rfl
          rw [hthere, hfinal] at hlook
          cases hlook
        refine ⟨hthere, ?_⟩
        rw [lookAt_put_of_at?_eq_none hlook hne]
        exact hput
      | some l' =>
        obtain ⟨rfl, rfl⟩ := foldlM_step_of_at? hlook h
        obtain rfl := at?_lookAt hfinal
        refine ⟨rfl, ?_⟩
        rw [lookAt_put_self]
        rfl
    · rw [hx] at h ⊢
      cases x with
      | error obstacle => cases h
      | ok next => exact ih (hnone next rfl) h

/-! ### Files that paths lead to -/

variable {path : String}

lemma target_of_follow {p : Path} {place : Place} (hpath : Path.ofChars path.toList = .ok p)
    (hfollow : files.follow p = .ok place) :
    files.target path = match place.at? with
      | none => .error .isFolder
      | some location => if p.ofFolder then .error .isFolder else .ok location := by
  unfold target
  rw [hpath]
  change (files.follow p >>= _) = _
  rw [hfollow]
  cases place <;> rfl

lemma target_eq_ok : files.target path = .ok location ↔ ∃ p place,
    Path.ofChars path.toList = .ok p ∧ p.ofFolder = false ∧ files.follow p = .ok place ∧
      place.at? = some location := by
  constructor
  · intro h
    cases hpath : Path.ofChars path.toList with
    | error obstacle =>
      rw [target, hpath] at h
      cases h
    | ok p =>
      cases hfollow : files.follow p with
      | error obstacle =>
        rw [target, hpath] at h
        change (files.follow p >>= _) = _ at h
        rw [hfollow] at h
        cases h
      | ok place =>
        rw [target_of_follow hpath hfollow] at h
        split at h
        case h_1 => cases h
        case h_2 _ l hplace =>
          split at h
          case isTrue => cases h
          case isFalse hfile =>
            obtain rfl := Except.ok.inj h
            exact ⟨p, place, rfl, Bool.eq_false_iff.mpr hfile, hfollow, hplace⟩
  · rintro ⟨p, place, hpath, hfile, hfollow, hplace⟩
    rw [target_of_follow hpath hfollow, hplace]
    exact if_neg (by simp [hfile])

lemma home_put (files : Files) (location : Location) (text : String) :
    (files.put location text).home = files.home := by
  unfold put
  split <;> rfl

/-- A path goes on leading to a file whose content is replaced, or which is added. -/
lemma target_put (h : files.target path = .ok location) :
    (files.put location text).target path = .ok location := by
  obtain ⟨p, place, hpath, hfile, hfollow, hplace⟩ := target_eq_ok.mp h
  refine target_eq_ok.mpr ⟨p, .file location text, hpath, hfile, ?_, rfl⟩
  rw [follow, home_put]
  exact (foldlM_step_put text rfl hplace hfollow).2

lemma locate?_eq_some : files.locate? path = some location ↔
    files.target path = .ok location ∧ (files.content? location).isSome := by
  rw [locate?, Option.filter_eq_some_iff]
  refine and_congr_left' ?_
  cases files.target path <;> simp [Except.toOption]

lemma locate?_put (h : files.target path = .ok location) :
    (files.put location text).locate? path = some location := by
  rw [locate?_eq_some]
  refine ⟨target_put h, ?_⟩
  rw [content?_put, if_pos rfl]
  rfl

/-- What is read is the content of the file that the path leads to. -/
lemma of_read_eq_ok (h : files.read path = .ok text) :
    ∃ location, files.locate? path = some location ∧ files.content? location = some text := by
  unfold read at h
  obtain ⟨p, hpath, h⟩ := Fault.bind_eq_ok.mp h
  obtain ⟨place, hfollow, h⟩ := Fault.bind_eq_ok.mp h
  cases place with
  | folder location => cases h
  | vacant location => cases h
  | file location text' =>
    dsimp only at h
    split at h
    case isTrue => cases h
    case isFalse hfile =>
      obtain rfl := Except.ok.inj h
      have hlook := (foldlM_step_put "" rfl rfl hfollow).1
      have hcontent : files.content? location = some text' := by
        unfold lookAt at hlook
        unfold content?
        split at hlook
        case h_1 _ old hold =>
          rw [hold, (Place.file.inj hlook).2]
        case h_2 => split at hlook <;> cases hlook
      refine ⟨location, locate?_eq_some.mpr ⟨?_, by rw [hcontent]; rfl⟩, hcontent⟩
      exact target_eq_ok.mpr ⟨p, _, hpath, Bool.eq_false_iff.mpr hfile, hfollow, rfl⟩

/-! ### The laws -/

lemma unchangedBut_put (files : Files) (location : Location) (text : String) :
    system.UnchangedBut location files (files.put location text) := by
  intro other hother
  change ((files.put location text).content? other).map _ = (files.content? other).map _
  rw [content?_put, if_neg hother]

lemma system_content?_put (files : Files) (location : Location) (text : String) :
    system.content? (files.put location text) location = some text.toUTF8 := by
  change ((files.put location text).content? location).map _ = _
  rw [content?_put, if_pos rfl]
  rfl

lemma opened_put (h : files.target path = .ok location) :
    system.Opened files path location (files.put location "") where
  located := locate?_put h
  kept old hold := by
    obtain ⟨htarget, -⟩ := locate?_eq_some.mp hold
    exact Except.ok.inj (htarget.symm.trans h)
  added hnone := by
    change (files.content? location).map _ = none
    by_contra hsome
    have hlocated : files.locate? path = some location :=
      locate?_eq_some.mpr ⟨h, by simpa [Option.isSome_iff_ne_none] using hsome⟩
    cases hnone.symm.trans hlocated
  empty := system_content?_put files location ""
  others := unchangedBut_put files location ""

theorem lawful_system : system.Lawful where
  read_ok {files path text} h := by
    cases hread : files.read path with
    | error obstacle =>
      change (files.read path).mapError _ = _ at h
      rw [hread] at h
      cases h
    | ok text' =>
      change (files.read path).mapError _ = _ at h
      rw [hread] at h
      obtain rfl := Except.ok.inj h
      obtain ⟨location, hlocated, hcontent⟩ := of_read_eq_ok hread
      refine ⟨location, hlocated, ?_⟩
      change (files.content? location).map _ = _
      rw [hcontent]
      rfl
  create_error {files after path reason} h := by
    simp only [system] at h
    split at h
    · cases h
      exact fun _ => rfl
    · cases h
  create_ok {files after path location} h := by
    simp only [system] at h
    split at h
    case h_1 => cases h
    case h_2 _ htarget =>
      cases h
      exact opened_put htarget
  fill {files after location text result} h := by
    cases h
    exact ⟨unchangedBut_put files location text, fun path hpath =>
      locate?_put (locate?_eq_some.mp hpath).1⟩
  fill_ok {files after location text} h _ := by
    cases h
    exact system_content?_put files location text

theorem hasRoom_system : system.HasRoom := fun _ _ _ => rfl

end Files

end BrailleScore
