namespace StackCalc.Text

def filler (fill : Char) (width : Nat) (text : String) : String :=
  String.ofList (List.replicate (width - text.length) fill)

def padLeft (fill : Char) (width : Nat) (text : String) : String := filler fill width text ++ text

def padRight (fill : Char) (width : Nat) (text : String) : String := text ++ filler fill width text

def unlines (lines : List String) : String :=
  lines.foldl (fun text line => text ++ line ++ "\n") ""

theorem unlines_from (start : String) (lines : List String) :
    lines.foldl (fun text line => text ++ line ++ "\n") start = start ++ unlines lines := by
  induction lines generalizing start with
  | nil => simp [unlines]
  | cons line lines ih =>
    have tail : unlines (line :: lines) = line ++ "\n" ++ unlines lines := by
      rw [unlines, List.foldl_cons, ih, String.empty_append]
    rw [List.foldl_cons, ih, tail]
    simp only [String.append_assoc]

@[simp] theorem unlines_cons (line : String) (lines : List String) :
    unlines (line :: lines) = line ++ "\n" ++ unlines lines := by
  rw [unlines, List.foldl_cons, unlines_from, String.empty_append]

end StackCalc.Text
