import StackCalc.CommandLine.Directory

namespace StackCalc.CommandLine

/-- Where a path that led to `t` leads once there is a file with these names. -/
def Target.made (names : Names) (t : Target) : Target :=
  if t = .vacant names then .file names else t

namespace Directory

/-- A target as it is found on the way along a path: inside of a directory that is there. -/
inductive Reached (d : Directory) : Target → Prop where
  | above : Reached d .above
  | directory {names : Names} : d.holds names = true → Reached d (.directory names)
  | file {names : Names} {piece : List Char} : d.holds names = true →
      d.target (names ++ [piece]) = .file (names ++ [piece]) →
        Reached d (.file (names ++ [piece]))
  | vacant {names : Names} {piece : List Char} : d.holds names = true →
      d.target (names ++ [piece]) = .vacant (names ++ [piece]) →
        Reached d (.vacant (names ++ [piece]))

variable {d : Directory} {names : Names} {piece : List Char} {t : Target}

theorem holds_iff : d.holds names = true ↔
    names = [] ∨ ∃ file ∈ d.files, names.length < file.1.length ∧ names <+: file.1 := by
  simp only [holds, Bool.or_eq_true, decide_eq_true_eq, List.any_eq_true, Bool.and_eq_true,
    List.prefix_iff_eq_take, eq_comm (b := names)]

theorem holds_outer {inner : Names} (held : d.holds inner = true) (outer : names <+: inner) :
    d.holds names = true := by
  rw [holds_iff] at held ⊢
  rcases held with rfl | ⟨file, member, shorter, within⟩
  · exact .inl (List.prefix_nil.mp outer)
  · exact .inr ⟨file, member, Nat.lt_of_le_of_lt outer.length_le shorter, outer.trans within⟩

theorem contents_put (d : Directory) (names other : Names) (bytes : ByteArray) :
    (d.put names bytes).contents? other =
      if other = names then some bytes else d.contents? other := by
  by_cases same : other = names
  · simp [contents?, put, same]
  · have first : decide (names = other) = false := decide_eq_false fun eq => same eq.symm
    have others : ∀ file : Names × ByteArray,
        (decide (file.1 ≠ names) = true ∧ decide (file.1 = other) = true) ↔ file.1 = other := by
      intro file
      simp only [decide_eq_true_eq, and_iff_right_iff_imp]
      rintro rfl
      exact same
    rw [if_neg same]
    simp only [contents?, put, List.find?_cons, first, List.find?_filter, others]

theorem holds_put (held : d.holds names = true) (piece : List Char) (bytes : ByteArray)
    (other : Names) : (d.put (names ++ [piece]) bytes).holds other = d.holds other := by
  rw [Bool.eq_iff_iff]
  constructor
  · intro after
    rcases holds_iff.mp after with rfl | ⟨file, member, shorter, within⟩
    · exact holds_iff.mpr (.inl rfl)
    · rcases List.mem_cons.mp member with rfl | old
      · rw [List.length_append, List.length_singleton] at shorter
        exact holds_outer held (List.prefix_of_prefix_length_le within (List.prefix_append _ _)
          (Nat.le_of_lt_succ shorter))
      · exact holds_iff.mpr (.inr ⟨file, (List.mem_filter.mp old).1, shorter, within⟩)
  · intro before
    rcases holds_iff.mp before with rfl | ⟨file, member, shorter, within⟩
    · exact holds_iff.mpr (.inl rfl)
    · apply holds_iff.mpr
      by_cases same : file.1 = names ++ [piece]
      · exact .inr ⟨_, List.mem_cons_self, same ▸ shorter, same ▸ within⟩
      · have kept : file ∈ (d.put (names ++ [piece]) bytes).files :=
          List.mem_cons_of_mem _ (List.mem_filter.mpr ⟨member, by simpa using same⟩)
        exact .inr ⟨file, kept, shorter, within⟩

theorem target_cases (d : Directory) (names : Names) :
    ((d.contents? names).isSome = true ∧ d.target names = .file names) ∨
    (d.contents? names = none ∧ d.holds names = true ∧ d.target names = .directory names) ∨
    (d.contents? names = none ∧ d.target names = .vacant names) := by
  unfold target
  cases d.contents? names with
  | some bytes => exact .inl ⟨rfl, rfl⟩
  | none =>
    cases d.holds names with
    | true => exact .inr (.inl ⟨rfl, rfl, rfl⟩)
    | false => exact .inr (.inr ⟨rfl, rfl⟩)

theorem target_reached (held : d.holds names = true) (piece : List Char) :
    d.Reached (d.target (names ++ [piece])) := by
  rcases d.target_cases (names ++ [piece]) with ⟨_, led⟩ | ⟨_, inner, led⟩ | ⟨_, led⟩
  · rw [led]
    exact .file held led
  · rw [led]
    exact .directory inner
  · rw [led]
    exact .vacant held led

theorem follow_reached {next : Target} (start : d.Reached t) (led : d.follow t piece = .ok next) :
    d.Reached next := by
  cases start with
  | above =>
    simp only [follow] at led
    split at led <;> cases led
    exact .above
  | file | vacant => cases led
  | @directory names held =>
    simp only [follow] at led
    split at led
    · cases led
      exact .directory held
    · split at led
      · split at led <;> cases led
        · exact .above
        · exact .directory (holds_outer held (List.dropLast_prefix names))
      · cases led
        exact target_reached held piece

theorem followAll_reached {others : List (List Char)} {last : Target} (start : d.Reached t)
    (led : d.followAll t others = .ok last) : d.Reached last := by
  induction others generalizing t with
  | nil =>
    cases led
    exact start
  | cons piece others ih =>
    simp only [followAll] at led
    split at led
    · cases led
    · rename_i next followed
      exact ih (follow_reached start followed) led

theorem locate_reached {path : List Char} (led : d.locate path = .ok t) : d.Reached t := by
  unfold locate at led
  apply followAll_reached _ led
  split
  · exact .above
  · exact .directory (holds_iff.mpr (.inl rfl))

/-- The names of a file that can be saved: in a directory that is there, and no directory. -/
def Free (d : Directory) (names : Names) : Prop :=
  (∃ outer piece, names = outer ++ [piece] ∧ d.holds outer = true) ∧
    (d.target names = .file names ∨ d.target names = .vacant names)

theorem target_put (free : d.Free names) (bytes : ByteArray) (other : Names) :
    (d.put names bytes).target other = (d.target other).made names := by
  obtain ⟨⟨outer, piece, rfl, held⟩, led⟩ := free
  by_cases same : other = outer ++ [piece]
  · subst same
    have there : (d.put (outer ++ [piece]) bytes).target (outer ++ [piece]) =
        .file (outer ++ [piece]) := by
      simp [target, contents_put]
    rcases led with led | led <;> rw [there, led] <;> simp [Target.made]
  · have unmoved : (d.target other).made (outer ++ [piece]) = d.target other := by
      rcases d.target_cases other with ⟨_, led⟩ | ⟨_, _, led⟩ | ⟨_, led⟩ <;>
        simp [Target.made, led, same]
    rw [unmoved, target, target, contents_put, if_neg same, holds_put held]

theorem follow_put {next : Target} (free : d.Free names) (bytes : ByteArray)
    (led : d.follow t piece = .ok next) :
    (d.put names bytes).follow t piece = .ok (next.made names) := by
  cases t with
  | file | vacant => cases led
  | above =>
    simp only [follow] at led ⊢
    split at led <;> cases led
    rename_i stays
    rw [if_pos stays]
    rfl
  | directory here =>
    simp only [follow] at led ⊢
    split at led
    · cases led
      rename_i stays
      rw [if_pos stays]
      rfl
    · rename_i goes
      rw [if_neg goes]
      split at led
      · rename_i up
        rw [if_pos up]
        split at led <;> cases led
        · rename_i top
          rw [if_pos top]
          rfl
        · rename_i inside
          rw [if_neg inside]
          rfl
      · rename_i down
        cases led
        rw [if_neg down, target_put free]

theorem followAll_put {others : List (List Char)} {last : Target} (free : d.Free names)
    (bytes : ByteArray) (led : d.followAll t others = .ok last) (start : t ≠ .vacant names) :
    (d.put names bytes).followAll t others = .ok (last.made names) := by
  induction others generalizing t with
  | nil =>
    cases led
    simp [followAll, Target.made, start]
  | cons piece others ih =>
    simp only [followAll] at led
    split at led
    · cases led
    · rename_i next followed
      simp only [followAll, follow_put free bytes followed]
      by_cases saved : next = .vacant names
      · -- Nothing can be behind a file, so this was the last piece.
        subst saved
        cases others with
        | nil =>
          cases led
          rfl
        | cons => cases led
      · simp only [Target.made, if_neg saved]
        exact ih led saved

theorem locate_put {path : List Char} (free : d.Free names) (bytes : ByteArray)
    (led : d.locate path = .ok t) : (d.put names bytes).locate path = .ok (t.made names) := by
  unfold locate at led ⊢
  apply followAll_put free bytes led
  split <;> nofun

theorem Reached.free (reached : d.Reached t) (found : t = .file names ∨ t = .vacant names) :
    d.Free names := by
  cases reached with
  | above | directory => rcases found with found | found <;> cases found
  | file held led =>
    rcases found with found | found <;> cases found
    exact ⟨⟨_, _, rfl, held⟩, .inl led⟩
  | vacant held led =>
    rcases found with found | found <;> cases found
    exact ⟨⟨_, _, rfl, held⟩, .inr led⟩

theorem strip_slashes {path : List Char} (no_slash : path.getLast? ≠ some '/') :
    (path.reverse.dropWhile (· = '/')).reverse = path := by
  rcases List.eq_nil_or_concat path with rfl | ⟨front, last, rfl⟩
  · rfl
  · have kept : last ≠ '/' := by simpa using no_slash
    simp [kept]

theorem save_free {path : String} {bytes : ByteArray} {d' : Directory}
    (saved : d.save path bytes = .ok d') : ∃ names, d.Free names ∧
      (d.locate path.toList = .ok (.file names) ∨ d.locate path.toList = .ok (.vacant names)) ∧
      d' = d.put names bytes := by
  have no_slash : path.toList.getLast? ≠ some '/' := by
    intro slash
    simp only [save, slash, if_true] at saved
    split at saved <;> cases saved
  simp only [save, strip_slashes no_slash, if_neg no_slash] at saved
  split at saved
  · cases saved
  · rename_i names led
    cases saved
    exact ⟨names, (locate_reached led).free (.inl rfl), .inl led, rfl⟩
  · rename_i names led
    cases saved
    exact ⟨names, (locate_reached led).free (.inr rfl), .inr led, rfl⟩
  · cases saved

theorem load_eq_ok {path : String} {bytes : ByteArray} : d.load path = .ok bytes ↔
    ∃ names, d.locate path.toList = .ok (.file names) ∧ d.contents? names = some bytes := by
  unfold load
  constructor
  · intro loaded
    split at loaded
    · cases loaded
    · rename_i names led
      split at loaded <;> cases loaded
      rename_i held
      exact ⟨names, led, held⟩
    · cases loaded
    · cases loaded
  · rintro ⟨names, led, held⟩
    simp only [led, held]

theorem load_saved {path : String} {bytes : ByteArray} {d' : Directory}
    (saved : d.save path bytes = .ok d') : d'.load path = .ok bytes := by
  obtain ⟨names, free, led, rfl⟩ := save_free saved
  refine load_eq_ok.mpr ⟨names, ?_, by rw [contents_put, if_pos rfl]⟩
  rcases led with led | led
  · exact locate_put free bytes led
  · rw [locate_put free bytes led, Target.made, if_pos rfl]

theorem load_other {path other : String} {bytes contents : ByteArray} {d' : Directory}
    (saved : d.save path bytes = .ok d') (loaded : d.load other = .ok contents)
    (apart : d.locate path.toList ≠ d.locate other.toList) : d'.load other = .ok contents := by
  obtain ⟨names, free, led, rfl⟩ := save_free saved
  obtain ⟨names', led', held⟩ := load_eq_ok.mp loaded
  have different : names' ≠ names := by
    rintro rfl
    rcases led with led | led
    · exact apart (led.trans led'.symm)
    · cases locate_reached led with
      | vacant _ vacant => simp [target, held] at vacant
  refine load_eq_ok.mpr ⟨names', ?_, ?_⟩
  · exact locate_put free bytes led'
  · rw [contents_put, if_neg different, held]

end Directory
end StackCalc.CommandLine
