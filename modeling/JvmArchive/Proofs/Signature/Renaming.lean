import JvmArchive.Proofs.Signature.Grammar
import JvmArchive.Proofs.Text.Cut

/-!
# Renaming a signature renames its classes

The scan follows the grammar with one character of lookahead. Scanning the text of a part of a signature
writes the text of the renamed part and leaves the stack as it was, except inside a class type: behind
the name of a class the scan awaits its suffixes, with the full name so far. The theorems on types go by
recursion over the tree, with any stack and any text behind the part.
-/
namespace JvmArchive.Signature

variable {f : String → Option String}

/-! ## Names -/

theorem innerSuffix_append (outer suffix : List Char) :
    innerSuffix outer (outer ++ '$' :: suffix) = suffix := by
  have hword : outer ++ '$' :: suffix = outer ++ ['$'] ++ suffix := by simp
  rw [innerSuffix, hword, Text.dropLeading?_append]

/-- A new name that does not extend the one of the class around it gives its last part. -/
theorem innerSuffix_eq_afterLast {outer mapped : List Char}
    (h : ∀ suffix, mapped ≠ outer ++ '$' :: suffix) :
    innerSuffix outer mapped = Text.afterLast '$' mapped := by
  rw [innerSuffix]
  split
  · next suffix hsuffix =>
    exact absurd (by simpa using Text.eq_append_of_dropLeading? hsuffix) (h suffix)
  · rfl

theorem endsName_of_isIdentifier {name : List Char} (h : isIdentifier name = true) :
    ∀ c ∈ name, endsName c = false := by
  intro c hc
  have hplain := List.all_eq_true.1 (Bool.and_eq_true_iff.1 h).2 c hc
  simp only [List.mem_cons, List.not_mem_nil, or_false, not_or, decide_eq_true_eq] at hplain
  simp [endsName, hplain]

theorem endsName_of_isClassName {name : List Char} (h : isClassName name = true) :
    ∀ c ∈ name, endsName c = false := by
  intro c hc
  have hjoined : ['/'].intercalate (name.splitOn '/') = name := List.intercalate_splitOn '/'
  rw [← hjoined] at hc
  obtain rfl | ⟨part, hpart, hc⟩ := Text.mem_intercalate hc
  · rfl
  · exact endsName_of_isIdentifier (List.all_eq_true.1 h part hpart) c hc

/-- Whether a text may stand behind the name of a class. -/
def FollowsName (rest : List Char) : Prop := ∀ c ∈ rest.head?, endsName c = true

theorem span_name {name rest : List Char} (hname : ∀ c ∈ name, endsName c = false)
    (hrest : FollowsName rest) :
    (name ++ rest).takeWhile (!endsName ·) = name ∧ (name ++ rest).dropWhile (!endsName ·) = rest := by
  have hinside : ∀ c ∈ name, (!endsName c) = true := fun c hc => by simp [hname c hc]
  have hstop : rest.takeWhile (!endsName ·) = [] ∧ rest.dropWhile (!endsName ·) = rest := by
    cases rest with
    | nil => simp
    | cons c rest => simp [hrest c rfl]
  rw [List.takeWhile_append_of_pos hinside, List.dropWhile_append_of_pos hinside, hstop.1, hstop.2,
    List.append_nil]
  exact ⟨rfl, rfl⟩

theorem followsName_angled (texts : List (List Char)) {rest : List Char} (h : FollowsName rest) :
    FollowsName (angled texts ++ rest) := by
  rw [angled]
  split
  · exact h
  · intro c hc
    obtain rfl : '<' = c := by simpa using hc
    rfl

/-! ## Steps of a scan -/

theorem scan_type (stack : List Awaited) (c : Char) (rest : List Char) :
    scan f (.type :: stack) (c :: rest) =
      (openType f c rest).1 ++ scan f ((openType f c rest).2.1 ++ stack) (openType f c rest).2.2 := by
  rw [scan]

theorem scan_outermost {stack : List Awaited} {name rest : List Char}
    (hname : ∀ c ∈ name, endsName c = false) (hrest : FollowsName rest) :
    scan f (.type :: stack) ('L' :: (name ++ rest)) =
      'L' :: (rename f name ++ scan f (.suffixes name :: stack) rest) := by
  rw [scan_type, openType, (span_name hname hrest).1, (span_name hname hrest).2]
  simp

theorem scan_inner {stack : List Awaited} {enclosing name rest : List Char}
    (hname : ∀ c ∈ name, endsName c = false) (hrest : FollowsName rest) :
    scan f (.suffixes enclosing :: stack) ('.' :: (name ++ rest)) =
      '.' :: (innerSuffix (rename f enclosing) (rename f (enclosing ++ '$' :: name)) ++
        scan f (.suffixes (enclosing ++ '$' :: name) :: stack) rest) := by
  rw [scan, if_neg (by decide), if_pos rfl, (span_name hname hrest).1, (span_name hname hrest).2]
  simp

theorem scan_end (stack : List Awaited) (full rest : List Char) :
    scan f (.suffixes full :: stack) (';' :: rest) = ';' :: scan f stack rest := by
  rw [scan, if_neg (by decide), if_neg (by decide), if_pos rfl]

theorem scan_variable {stack : List Awaited} {name rest : List Char} (h : isIdentifier name = true) :
    scan f (.type :: stack) ('T' :: (name ++ ';' :: rest)) =
      'T' :: (name ++ ';' :: scan f stack rest) := by
  have hinside : ∀ c ∈ name, (c != ';') = true := by
    intro c hc
    have := endsName_of_isIdentifier h c hc
    simp only [endsName, Bool.or_eq_false_iff] at this
    simp [bne, this]
  rw [scan_type, openType, List.takeWhile_append_of_pos hinside, List.dropWhile_append_of_pos hinside]
  simp

theorem scan_array (stack : List Awaited) (rest : List Char) :
    scan f (.type :: stack) ('[' :: rest) = '[' :: scan f (.type :: stack) rest := by
  simp [scan_type, openType]

theorem scan_primitive (stack : List Awaited) (type : Primitive) (rest : List Char) :
    scan f (.type :: stack) (type.letter :: rest) = type.letter :: scan f stack rest := by
  rw [scan_type]
  cases type <;> rfl

theorem scan_argument {stack : List Awaited} {c : Char} (hc : c ∉ ['>', '*', '+', '-']) (rest : List Char) :
    scan f (.arguments :: stack) (c :: rest) = scan f (.type :: .arguments :: stack) (c :: rest) := by
  simp only [List.mem_cons, List.not_mem_nil, or_false, not_or] at hc
  rw [scan_type, scan, if_neg hc.1, if_neg hc.2.1, if_neg (by simp [hc])]

theorem scan_nil_of_type {c : Char} (hc : c ∉ ['(', ')', '^']) (rest : List Char) :
    scan f [] (c :: rest) = scan f [.type] (c :: rest) := by
  have hc' : ¬(c = '(' ∨ c = ')' ∨ c = '^') := by simpa using hc
  rw [scan_type, scan, if_neg hc', List.append_nil]

/-- Arguments between angles are scanned as they are without them. -/
theorem scan_angled {stack : List Awaited} {full rest : List Char} {texts renamed : List (List Char)}
    (hempty : renamed.isEmpty = texts.isEmpty)
    (h : ∀ stack rest, scan f (.arguments :: stack) (texts.flatten ++ rest) =
      renamed.flatten ++ scan f (.arguments :: stack) rest) :
    scan f (.suffixes full :: stack) (angled texts ++ rest) =
      angled renamed ++ scan f (.suffixes full :: stack) rest := by
  rw [angled, angled, hempty]
  split
  · rfl
  · simp only [List.cons_append, List.append_assoc, List.nil_append]
    rw [scan, if_pos rfl, h, scan, if_pos rfl]

/-! ## Types -/

theorem Reference.exists_print_eq (type : Reference) :
    ∃ c rest, type.print = c :: rest ∧ (c = 'L' ∨ c = 'T' ∨ c = '[') := by
  cases type <;> simp [Reference.print]

theorem isEmpty_printArguments_rename (arguments : List Argument) :
    (printArguments (renameArguments f arguments)).isEmpty = (printArguments arguments).isEmpty := by
  cases arguments <;> rfl

mutual

theorem Reference.scan_print (stack : List Awaited) (rest : List Char) :
    ∀ type : Reference, type.isWellFormed = true →
      scan f (.type :: stack) (type.print ++ rest) = (type.rename f).print ++ scan f stack rest
  | .object type, h => by
    have hbody := ClassType.scan_body stack (';' :: rest) (by rintro c ⟨⟩; rfl) type h
    simp only [Reference.print, Reference.rename, List.cons_append, List.append_assoc, List.nil_append]
    rw [hbody, scan_end]
  | .typeVariable name, h => by
    simp only [Reference.print, Reference.rename, List.cons_append, List.append_assoc, List.nil_append]
    exact scan_variable h
  | .array element, h => by
    simp only [Reference.print, Reference.rename, List.cons_append]
    rw [scan_array, JavaType.scan_print stack rest element h]

theorem JavaType.scan_print (stack : List Awaited) (rest : List Char) :
    ∀ type : JavaType, type.isWellFormed = true →
      scan f (.type :: stack) (type.print ++ rest) = (type.rename f).print ++ scan f stack rest
  | .primitive type, _ => scan_primitive stack type rest
  | .reference type, h => Reference.scan_print stack rest type h

theorem ClassType.scan_body (stack : List Awaited) (rest : List Char) (hrest : FollowsName rest) :
    ∀ type : ClassType, type.isWellFormed = true →
      scan f (.type :: stack) ('L' :: (type.body ++ rest)) =
        'L' :: ((type.rename f).body ++ scan f (.suffixes type.fullName :: stack) rest)
  | .outermost name arguments, h => by
    obtain ⟨hname, harguments⟩ := Bool.and_eq_true_iff.1 h
    simp only [ClassType.body, ClassType.rename, ClassType.fullName, List.append_assoc]
    rw [scan_outermost (endsName_of_isClassName hname) (followsName_angled _ hrest),
      scan_angled (isEmpty_printArguments_rename arguments) fun stack rest =>
        scan_printArguments stack rest arguments harguments]
  | .inner enclosing name arguments, h => by
    obtain ⟨h, harguments⟩ := Bool.and_eq_true_iff.1 h
    obtain ⟨henclosing, hname⟩ := Bool.and_eq_true_iff.1 h
    simp only [ClassType.body, ClassType.rename, ClassType.fullName, List.append_assoc,
      List.cons_append]
    rw [ClassType.scan_body stack _ (by rintro c ⟨⟩; rfl) enclosing henclosing,
      scan_inner (endsName_of_isIdentifier hname) (followsName_angled _ hrest),
      scan_angled (isEmpty_printArguments_rename arguments) fun stack rest =>
        scan_printArguments stack rest arguments harguments]

theorem Argument.scan_print (stack : List Awaited) (rest : List Char) :
    ∀ argument : Argument, argument.isWellFormed = true →
      scan f (.arguments :: stack) (argument.print ++ rest) =
        (argument.rename f).print ++ scan f (.arguments :: stack) rest
  | .any, _ => by
    simp only [Argument.print, Argument.rename, List.cons_append, List.nil_append]
    rw [scan, if_neg (by decide), if_pos rfl]
  | .of variance type, h => by
    have htype := Reference.scan_print (.arguments :: stack) rest type h
    simp only [Argument.print, Argument.rename, List.append_assoc]
    cases variance with
    | exact =>
      obtain ⟨c, tail, hprint, hc⟩ := type.exists_print_eq
      rw [← htype, hprint]
      exact scan_argument (by rcases hc with rfl | rfl | rfl <;> decide) _
    | upper | lower =>
      simp only [Variance.sign, List.cons_append, List.nil_append]
      rw [scan, if_neg (by decide), if_neg (by decide), if_pos (by decide), htype]

theorem scan_printArguments (stack : List Awaited) (rest : List Char) :
    ∀ arguments : List Argument, areWellFormed arguments = true →
      scan f (.arguments :: stack) ((printArguments arguments).flatten ++ rest) =
        (printArguments (renameArguments f arguments)).flatten ++ scan f (.arguments :: stack) rest
  | [], _ => rfl
  | argument :: arguments, h => by
    obtain ⟨hfirst, hothers⟩ := Bool.and_eq_true_iff.1 h
    simp only [printArguments, renameArguments, List.flatten_cons, List.append_assoc]
    rw [Argument.scan_print stack _ argument hfirst, scan_printArguments stack rest arguments hothers]

end

/-! ## Type parameters -/

/-- Items that are renamed one by one from the same stack are renamed in a row. -/
theorem scan_flatMap {α : Type} {stack : List Awaited} (print : α → List Char) (r : α → α)
    {items : List α} (h : ∀ item ∈ items, ∀ rest,
      scan f stack (print item ++ rest) = print (r item) ++ scan f stack rest) (rest : List Char) :
    scan f stack (items.flatMap print ++ rest) =
      (items.map r).flatMap print ++ scan f stack rest := by
  induction items with
  | nil => rfl
  | cons item items ih =>
    rw [List.forall_mem_cons] at h
    simp only [List.map_cons, List.flatMap_cons, List.append_assoc]
    rw [h.1, ih h.2]

/-- The last items of a signature. -/
theorem scan_flatMap_nil {α : Type} (print : α → List Char) (r : α → α) {items : List α}
    (h : ∀ item ∈ items, ∀ rest, scan f [] (print item ++ rest) = print (r item) ++ scan f [] rest) :
    scan f [] (items.flatMap print) = (items.map r).flatMap print := by
  simpa [scan] using scan_flatMap print r h []

theorem Reference.startsBound_print (type : Reference) (rest : List Char) :
    startsBound (type.print ++ rest) = true := by
  obtain ⟨c, tail, hprint, hc⟩ := type.exists_print_eq
  rw [hprint, List.cons_append]
  rcases hc with rfl | rfl | rfl <;> rfl

theorem scan_bound (stack : List Awaited) {bound : Reference} (h : bound.isWellFormed = true)
    (rest : List Char) :
    scan f (.bounds true :: stack) (':' :: bound.print ++ rest) =
      ':' :: (bound.rename f).print ++ scan f (.bounds true :: stack) rest := by
  rw [List.cons_append, scan, if_pos rfl, if_pos (bound.startsBound_print rest),
    Reference.scan_print _ rest bound h, List.cons_append]

/-- After the bounds of a parameter a scan is where it was before the parameter. -/
theorem scan_bounds_end (stack : List Awaited) {rest : List Char} (h : rest.head? ≠ some ':') :
    scan f (.bounds true :: stack) rest = scan f (.parameters :: stack) rest := by
  cases rest with
  | nil => rw [scan, scan]
  | cons c rest =>
    have hc : c ≠ ':' := by simpa using h
    conv =>
      lhs
      rw [scan, if_neg hc, if_neg (by simp)]

theorem ne_of_mem_identifier {name : List Char} (h : isIdentifier name = true) {c : Char}
    (hc : c ∈ name) : c ≠ ':' ∧ c ≠ '>' := by
  have hplain := List.all_eq_true.1 (Bool.and_eq_true_iff.1 h).2 c hc
  simp only [List.mem_cons, List.not_mem_nil, or_false, not_or, decide_eq_true_eq] at hplain
  exact ⟨hplain.2.2.2.2.2.2, hplain.2.2.2.2.2.1⟩

theorem scan_parameter_name (stack : List Awaited) {name : List Char} (h : isIdentifier name = true)
    (rest : List Char) :
    scan f (.parameters :: stack) (name ++ ':' :: rest) =
      name ++ scan f (.bounds true :: stack) (':' :: rest) := by
  cases name with
  | nil => cases h
  | cons c name =>
    have hinside : ∀ d ∈ name, (d != ':' && d != '>') = true := fun d hd => by
      simp [ne_of_mem_identifier h (List.mem_cons_of_mem c hd)]
    obtain ⟨hcolon, hangle⟩ := ne_of_mem_identifier h List.mem_cons_self
    rw [List.cons_append, scan, if_neg hangle, if_neg hcolon,
      List.takeWhile_append_of_pos hinside, List.dropWhile_append_of_pos hinside]
    simp

theorem scan_parameter (stack : List Awaited) {parameter : TypeParameter}
    (h : parameter.isWellFormed = true) {rest : List Char} (hrest : rest.head? ≠ some ':') :
    scan f (.parameters :: stack) (parameter.print ++ rest) =
      (parameter.rename f).print ++ scan f (.parameters :: stack) rest := by
  obtain ⟨name, classBound, interfaceBounds⟩ := parameter
  simp only [TypeParameter.isWellFormed, Bool.and_eq_true, List.all_eq_true] at h
  obtain ⟨⟨⟨hname, hclass⟩, hinterfaces⟩, hwritten⟩ := h
  have hbounds (rest : List Char) :
      scan f (.bounds true :: stack) (interfaceBounds.flatMap (fun bound => ':' :: bound.print) ++ rest) =
        (interfaceBounds.map (Reference.rename f)).flatMap (fun bound => ':' :: bound.print) ++
          scan f (.bounds true :: stack) rest :=
    scan_flatMap (fun bound => ':' :: bound.print) (Reference.rename f) (fun bound hbound =>
      scan_bound stack (hinterfaces bound hbound)) rest
  simp only [TypeParameter.print, TypeParameter.rename, List.append_assoc, List.cons_append]
  rw [scan_parameter_name stack hname]
  cases classBound with
  | some bound =>
    have hbound : bound.isWellFormed = true := by simpa using hclass
    simp only [Option.elim_some, Option.map_some]
    rw [← List.cons_append, scan_bound stack hbound, hbounds, scan_bounds_end stack hrest,
      List.cons_append]
  | none =>
    -- The colon of the class bound is followed by the one of an interface bound.
    obtain ⟨first, others, rfl⟩ : ∃ first others, interfaceBounds = first :: others :=
      List.exists_cons_of_ne_nil (by simpa using hwritten)
    simp only [Option.elim_none, Option.map_none, List.nil_append]
    rw [scan, if_pos rfl, if_neg (by simp [startsBound]), hbounds, scan_bounds_end stack hrest]

/-- What follows a parameter, be it another one or the end, starts with no colon. -/
theorem head?_parameters_ne {parameters : List TypeParameter}
    (h : parameters.all TypeParameter.isWellFormed = true) (rest : List Char) :
    ((parameters.map TypeParameter.print).flatten ++ '>' :: rest).head? ≠ some ':' := by
  cases parameters with
  | nil => simp
  | cons parameter parameters =>
    simp only [List.all_cons, TypeParameter.isWellFormed, Bool.and_eq_true] at h
    have hname : isIdentifier parameter.name = true := h.1.1.1.1
    obtain ⟨c, name, hcons⟩ : ∃ c name, parameter.name = c :: name :=
      List.exists_cons_of_ne_nil fun hnil => by simp [hnil, isIdentifier] at hname
    have hc : c ≠ ':' := (ne_of_mem_identifier hname (by rw [hcons]; exact List.mem_cons_self)).1
    simp [TypeParameter.print, hcons, hc]

theorem scan_parameters (stack : List Awaited) {parameters : List TypeParameter}
    (h : parameters.all TypeParameter.isWellFormed = true) (rest : List Char) :
    scan f (.parameters :: stack) ((parameters.map TypeParameter.print).flatten ++ '>' :: rest) =
      ((parameters.map (TypeParameter.rename f)).map TypeParameter.print).flatten ++
        '>' :: scan f stack rest := by
  induction parameters with
  | nil => rw [List.map_nil, List.flatten_nil, List.nil_append, scan, if_pos rfl]; rfl
  | cons parameter parameters ih =>
    rw [List.all_cons, Bool.and_eq_true] at h
    simp only [List.map_cons, List.flatten_cons, List.append_assoc]
    rw [scan_parameter stack h.1 (head?_parameters_ne h.2 rest), ih h.2]

/-! ## Signatures -/

theorem scan_mark {c : Char} (hc : c ∈ ['(', ')', '^']) (rest : List Char) :
    scan f [] (c :: rest) = c :: scan f [] rest := by
  have hc' : c = '(' ∨ c = ')' ∨ c = '^' := by simpa using hc
  rw [scan, if_pos hc']

theorem scan_nil_reference (type : Reference) (h : type.isWellFormed = true) (rest : List Char) :
    scan f [] (type.print ++ rest) = (type.rename f).print ++ scan f [] rest := by
  rw [← Reference.scan_print [] rest type h]
  obtain ⟨c, tail, hprint, hc⟩ := type.exists_print_eq
  rw [hprint]
  exact scan_nil_of_type (by rcases hc with rfl | rfl | rfl <;> decide) _

theorem scan_nil_object {type : ClassType} (h : type.isWellFormed = true) (rest : List Char) :
    scan f [] (type.print ++ rest) = (type.rename f).print ++ scan f [] rest :=
  scan_nil_reference (.object type) h rest

theorem scan_nil_type {type : JavaType} (h : type.isWellFormed = true) (rest : List Char) :
    scan f [] (type.print ++ rest) = (type.rename f).print ++ scan f [] rest := by
  cases type with
  | primitive type =>
    rw [← JavaType.scan_print [] rest (.primitive type) h]
    exact scan_nil_of_type (by cases type <;> decide) rest
  | reference type => exact scan_nil_reference type h rest

theorem scan_result {result : Option JavaType} (h : result.all JavaType.isWellFormed = true)
    (rest : List Char) :
    scan f [] (result.elim ['V'] JavaType.print ++ rest) =
      (result.map (JavaType.rename f)).elim ['V'] JavaType.print ++ scan f [] rest := by
  cases result with
  | none =>
    simp only [Option.elim_none, Option.map_none, List.cons_append, List.nil_append]
    rw [scan, if_neg (by decide)]
    rfl
  | some type => exact scan_nil_type (by simpa using h) rest

theorem scan_thrown {thrown : Thrown} (h : thrown.isWellFormed = true) (rest : List Char) :
    scan f [] (thrown.print ++ rest) = (thrown.rename f).print ++ scan f [] rest := by
  cases thrown with
  | object type =>
    simp only [Thrown.print, Thrown.rename, List.cons_append]
    rw [scan_mark (by decide), scan_nil_object h]
  | typeVariable name =>
    simp only [Thrown.print, Thrown.rename, List.cons_append]
    rw [scan_mark (by decide), scan_nil_reference (.typeVariable name) h]
    rfl

theorem map_of_head? {s : List Char} (h : s.head? ≠ some '<') :
    map f (String.ofList s) = String.ofList (scan f [] s) := by
  rw [map, String.toList_ofList]
  split
  · simp at h
  · rfl

/-- The parameters in front of a signature are scanned before the rest. -/
theorem map_printParameters {parameters : List TypeParameter}
    (h : parameters.all TypeParameter.isWellFormed = true) {rest : List Char}
    (hrest : rest.head? ≠ some '<') :
    map f (String.ofList (printParameters parameters ++ rest)) =
      String.ofList (printParameters (parameters.map (TypeParameter.rename f)) ++ scan f [] rest) := by
  cases hp : parameters with
  | nil => exact map_of_head? hrest
  | cons parameter others =>
    rw [← hp, map, String.toList_ofList, printParameters, printParameters, angled, angled,
      if_neg (by simp [hp]), if_neg (by simp [hp])]
    simp only [List.cons_append, List.append_assoc, List.nil_append]
    rw [scan_parameters [] h rest]

/-- Renaming the text of a well-formed signature renames its classes, each inner class as its full
name says, and changes nothing else. -/
theorem map_ofList_print (f : String → Option String) (tree : Tree) (h : tree.isWellFormed = true) :
    map f (String.ofList tree.print) = String.ofList (tree.rename f).print := by
  cases tree with
  | ofClass parameters superclass interfaces =>
    obtain ⟨h, hinterfaces⟩ := Bool.and_eq_true_iff.1 h
    obtain ⟨hparameters, hsuperclass⟩ := Bool.and_eq_true_iff.1 h
    simp only [Tree.print, Tree.rename, List.append_assoc]
    rw [map_printParameters hparameters (by simp [ClassType.print, Reference.print]),
      scan_nil_object hsuperclass, scan_flatMap_nil ClassType.print (ClassType.rename f) fun type htype =>
        scan_nil_object (List.all_eq_true.1 hinterfaces type htype)]
  | ofMethod parameters arguments result throws =>
    obtain ⟨h, hthrows⟩ := Bool.and_eq_true_iff.1 h
    obtain ⟨h, hresult⟩ := Bool.and_eq_true_iff.1 h
    obtain ⟨hparameters, harguments⟩ := Bool.and_eq_true_iff.1 h
    simp only [Tree.print, Tree.rename, List.append_assoc, List.cons_append]
    rw [map_printParameters hparameters (by simp), scan_mark (by decide),
      scan_flatMap JavaType.print (JavaType.rename f) fun type htype =>
        scan_nil_type (List.all_eq_true.1 harguments type htype),
      scan_mark (by decide), scan_result hresult,
      scan_flatMap_nil Thrown.print (Thrown.rename f) fun thrown hthrown =>
        scan_thrown (List.all_eq_true.1 hthrows thrown hthrown)]
  | ofField type =>
    have hangle : type.print.head? ≠ some '<' := by
      obtain ⟨c, tail, hprint, hc⟩ := type.exists_print_eq
      rw [hprint]
      rcases hc with rfl | rfl | rfl <;> simp
    have hscan := scan_nil_reference (f := f) type h []
    rw [List.append_nil, scan, List.append_nil] at hscan
    rw [Tree.print, Tree.rename, Tree.print, map_of_head? hangle, hscan]

/-- A generic method with a parameter bounded by an interface only and an inner class as its result. -/
def entryMethod : Tree :=
  let item := Reference.object (.outermost ['p', '/', 'I'] [])
  let comparable := ClassType.outermost ['C'] [.of .exact (.typeVariable ['U'])]
  let box := ClassType.outermost ['p', '/', 'B'] [.any]
  .ofMethod [⟨['L'], some item, []⟩, ⟨['U'], none, [.object comparable]⟩]
    [.reference (.object (.outermost ['M'] [.of .upper item, .of .exact (.array (.primitive .int))]))]
    (some (.reference (.object (.inner box ['E'] [.of .lower item])))) [.typeVariable ['L']]

def boxNames : String → Option String
  | "p/B" => some "a"
  | "p/B$E" => some "a$b"
  | "p/I" => some "c"
  | _ => none

theorem map_ofList_print_entryMethod :
    entryMethod.isWellFormed = true ∧
      String.ofList entryMethod.print = "<L:Lp/I;U::LC<TU;>;>(LM<+Lp/I;[I>;)Lp/B<*>.E<-Lp/I;>;^TL;" ∧
      map boxNames (String.ofList entryMethod.print) =
        "<L:Lc;U::LC<TU;>;>(LM<+Lc;[I>;)La<*>.b<-Lc;>;^TL;" := by
  refine ⟨by decide, by decide, ?_⟩
  rw [map_ofList_print boxNames entryMethod (by decide)]
  decide

end JvmArchive.Signature
