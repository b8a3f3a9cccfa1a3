import Repertoire.CommandLine.Run
import Repertoire.Proofs.Tools.Calling
import Repertoire.Proofs.Tools.Merging

/-!
# Arguments given as pairs

The arguments of a call are pairs of a key and a value, or raw words. Pairs make an object: each key
stands where it was given first, with the value that it was given last. So a call can be written in
a normal form, in which every key is given once, and it comes to the same.

For one tool even less matters, as its declared arguments have an order of their own. The text for
a tool depends only on the pairs of each declared key and on those of the keys that are not
declared, each taken in their order. A pair with a declared key that no other pair has may
therefore stand anywhere.
-/

namespace Repertoire.CommandLine

/-! ## Keys and values -/

/-- The argument has an equals sign. -/
def IsPair (arg : String) : Prop := '=' ∈ arg.toList

instance (arg : String) : Decidable (IsPair arg) := inferInstanceAs (Decidable (_ ∈ _))

/-- The text before the first equals sign. -/
def keyOf (arg : String) : String := String.ofList (arg.toList.takeWhile (· ≠ '='))

/-- The text after the first equals sign. -/
def valueOf (arg : String) : String := String.ofList (arg.toList.dropWhile (· ≠ '=')).tail

/-- What a pair adds to the object. -/
def member (arg : String) : String × Json.Value := (keyOf arg, .string (valueOf arg))

variable {pairs pairs' raw : List String}

/-- An argument is cut into its key and its value if it has an equals sign. -/
theorem cutPair_eq (arg : String) :
    cutPair arg = if IsPair arg then .ok (member arg) else .error (.malformedPair arg) := by
  rw [cutPair, Text.cutAt?_singleton]
  by_cases h : '=' ∈ arg.toList
  · rw [if_pos h, if_pos (show IsPair arg from h)]
    rfl
  · rw [if_neg h, if_neg (show ¬ IsPair arg from h)]

/-- An argument with an equals sign is its key, the first equals sign and its value. -/
theorem IsPair.cut {arg : String} (h : IsPair arg) :
    arg = keyOf arg ++ "=" ++ valueOf arg ∧ ¬ IsPair (keyOf arg) := by
  constructor
  · have hcut := (Text.cutAt?_singleton '=' arg.toList).trans (if_pos h)
    refine String.toList_inj.mp ?_
    simp only [keyOf, valueOf, String.toList_append, String.toList_ofList]
    exact Text.eq_of_cutAt? hcut
  · intro hkey
    rw [IsPair, keyOf, String.toList_ofList] at hkey
    simpa using List.mem_takeWhile_imp hkey

/-- Pairs are cut one by one. -/
theorem cutPairs_of_pairs (hall : ∀ arg ∈ pairs, IsPair arg) :
    cutPairs pairs = .ok (pairs.map member) := by
  induction pairs with
  | nil => rfl
  | cons arg pairs ih =>
    obtain ⟨harg, hrest⟩ := List.forall_mem_cons.mp hall
    rw [cutPairs, cutPair_eq, if_pos harg, ih hrest]
    rfl

/-- Cutting stops at the first argument that has no equals sign. -/
theorem cutPairs_of_malformed {front : List String} {arg : String}
    (hfront : ∀ p ∈ front, IsPair p) (harg : ¬ IsPair arg) (back : List String) :
    cutPairs (front ++ arg :: back) = .error (.malformedPair arg) := by
  induction front with
  | nil => rw [List.nil_append, cutPairs, cutPair_eq, if_neg harg]
  | cons p front ih =>
    obtain ⟨hp, hrest⟩ := List.forall_mem_cons.mp hfront
    rw [List.cons_append, cutPairs, cutPair_eq, if_pos hp, ih hrest]

/-! ## Refusals -/

/-- Why arguments are refused: pairs and raw words are mixed, or an argument has no equals sign, of
which the first is named. -/
inductive Refused (pairs raw : List String) : CommandError → Prop
  | mixed (hpairs : pairs ≠ []) (hraw : raw ≠ []) : Refused pairs raw .pairsAndRaw
  | malformed {front back : List String} {arg : String} (hraw : raw = [])
      (hpairs : pairs = front ++ arg :: back) (hfront : ∀ p ∈ front, IsPair p)
      (harg : ¬ IsPair arg) : Refused pairs raw (.malformedPair arg)

/-- Pairs make an object of their members, and go with no raw words. -/
theorem toolArguments_of_pairs (hall : ∀ arg ∈ pairs, IsPair arg) (raw : List String) :
    toolArguments pairs raw =
      if pairs = [] then .ok (if raw = [] then .none else .raw (Text.joinWith " " raw))
      else if raw = [] then .ok (.named (Json.settle (pairs.map member)))
      else .error .pairsAndRaw := by
  rw [toolArguments, cutPairs_of_pairs hall]
  cases pairs <;> cases raw <;> rfl

/-- Every reason is one for which arguments are refused. -/
theorem Refused.eq_error {e : CommandError} (h : Refused pairs raw e) :
    toolArguments pairs raw = .error e := by
  cases h with
  | mixed hpairs hraw => simp [toolArguments, hpairs, hraw]
  | malformed hraw hpairs hfront harg =>
    rw [hraw, hpairs, toolArguments, cutPairs_of_malformed hfront harg]
    simp

/-- Arguments are refused if one of them has no equals sign. -/
theorem exists_refused_of_malformed (raw : List String) (h : ∃ arg ∈ pairs, ¬ IsPair arg) :
    ∃ e, Refused pairs raw e := by
  by_cases hraw : raw = []
  · have hfound : (pairs.find? fun arg => ¬ IsPair arg).isSome := by simpa using h
    obtain ⟨arg, hfirst⟩ := Option.isSome_iff_exists.mp hfound
    obtain ⟨harg, front, back, hpairs, hfront⟩ := List.find?_eq_some_iff_append.mp hfirst
    exact ⟨_, .malformed hraw hpairs (by simpa using hfront) (by simpa using harg)⟩
  · obtain ⟨arg, harg, -⟩ := h
    exact ⟨_, .mixed (List.ne_nil_of_mem harg) hraw⟩

/-- Arguments are refused for a reason. -/
theorem toolArguments_eq_error_iff (pairs raw : List String) (e : CommandError) :
    toolArguments pairs raw = .error e ↔ Refused pairs raw e := by
  refine ⟨fun h => ?_, Refused.eq_error⟩
  by_cases hall : ∀ arg ∈ pairs, IsPair arg
  · rw [toolArguments_of_pairs hall] at h
    split_ifs at h with hpairs hraw
    cases h
    exact .mixed hpairs hraw
  · obtain ⟨e', hrefused⟩ := exists_refused_of_malformed raw (by simpa using hall)
    rw [hrefused.eq_error] at h
    exact Except.error.inj h ▸ hrefused

/-- Arguments are refused if pairs and raw words are mixed, or if there are no raw words and an
argument has no equals sign. -/
theorem exists_refused_iff (pairs raw : List String) :
    (∃ e, Refused pairs raw e) ↔
      (pairs ≠ [] ∧ raw ≠ []) ∨ (raw = [] ∧ ∃ arg ∈ pairs, ¬ IsPair arg) := by
  constructor
  · rintro ⟨e, ⟨hpairs, hraw⟩ | ⟨hraw, rfl, -, harg⟩⟩
    · exact .inl ⟨hpairs, hraw⟩
    · exact .inr ⟨hraw, _, List.mem_append_right _ List.mem_cons_self, harg⟩
  · rintro (⟨hpairs, hraw⟩ | ⟨-, hsome⟩)
    · exact ⟨_, .mixed hpairs hraw⟩
    · exact exists_refused_of_malformed raw hsome

/-! ## The normal form -/

/-- The last argument with a key. -/
def lastWith (pairs : List String) (key : String) : Option String :=
  pairs.reverse.find? fun arg => keyOf arg = key

/-- The arguments with every key once, where it is given first, as it is given last. -/
def normalForm (pairs : List String) : List String :=
  (pairs.map keyOf).eraseDups.filterMap (lastWith pairs)

/-- No later argument has the same key. -/
def IsLast (pairs : List String) (arg : String) : Prop :=
  ∃ front back, pairs = front ++ arg :: back ∧ ∀ later ∈ back, keyOf later ≠ keyOf arg

/-- The last argument with its key is one of the arguments. -/
theorem IsLast.mem {arg : String} (h : IsLast pairs arg) : arg ∈ pairs := by
  obtain ⟨front, back, rfl, -⟩ := h
  simp

/-- The last argument with a key has it, and no later one has. -/
theorem isLast_of_lastWith {key arg : String} (h : lastWith pairs key = some arg) :
    IsLast pairs arg := by
  obtain ⟨hkey, later, front, hpairs, hlater⟩ := List.find?_eq_some_iff_append.mp h
  obtain rfl : keyOf arg = key := by simpa using hkey
  refine ⟨front.reverse, later.reverse, ?_, fun q hq => ?_⟩
  · rw [← List.reverse_reverse pairs, hpairs]
    simp
  · simpa using hlater q (List.mem_reverse.mp hq)

/-- What the object holds under a key comes from the last argument with it. -/
theorem find?_reverse_members (pairs : List String) (key : String) :
    (pairs.map member).reverse.find? (fun m => m.1 = key) = (lastWith pairs key).map member := by
  rw [← List.map_reverse, List.find?_map]
  rfl

/-- The object has the members of the normal form. -/
theorem settle_members (pairs : List String) :
    Json.settle (pairs.map member) = (normalForm pairs).map member := by
  rw [Json.settle_eq, normalForm, List.map_filterMap, List.map_map]
  exact List.filterMap_congr fun key _ => find?_reverse_members pairs key

/-- The keys of the normal form are those that are given, in the order of their first places. -/
theorem keys_normalForm (pairs : List String) :
    (normalForm pairs).map keyOf = (pairs.map keyOf).eraseDups := by
  have hnames := Json.names_settle (pairs.map member)
  rw [settle_members, List.map_map, List.map_map] at hnames
  exact hnames

/-- The arguments of the normal form are the last ones with their keys. -/
theorem isLast_of_mem_normalForm {arg : String} (h : arg ∈ normalForm pairs) :
    IsLast pairs arg := by
  obtain ⟨key, -, hlast⟩ := List.mem_filterMap.mp h
  exact isLast_of_lastWith hlast

example : normalForm ["b=1", "a=2", "b=3=4"] = ["b=3=4", "a=2"] := by decide +kernel

/-- The normal form of something is something. -/
theorem normalForm_eq_nil_iff (pairs : List String) : normalForm pairs = [] ↔ pairs = [] := by
  rw [← List.map_eq_nil_iff (f := keyOf), keys_normalForm]
  cases pairs <;> simp [List.eraseDups_cons]

/-- The normal form makes the same object. -/
theorem settle_members_normalForm (pairs : List String) :
    Json.settle ((normalForm pairs).map member) = Json.settle (pairs.map member) := by
  rw [settle_members pairs]
  refine Json.settle_of_nodup ?_
  rw [← settle_members]
  exact Json.nodup_names_settle _

/-! ## What decides the text for a tool -/

/-- The last argument with a key is the last of those that have it. -/
theorem lastWith_eq (pairs : List String) (key : String) :
    lastWith pairs key = (pairs.filter fun arg => keyOf arg = key).getLast? := by
  rw [lastWith, ← List.head?_filter, List.filter_reverse, List.head?_reverse]

/-- The text for a tool depends only on the arguments of each declared key, and on those of the keys
that are not declared, each in their order. -/
theorem render_members_congr {t : Tool}
    (hdeclared : ∀ key ∈ t.argKeys, pairs'.filter (fun arg => keyOf arg = key) =
      pairs.filter fun arg => keyOf arg = key)
    (hothers : pairs'.filter (fun arg => keyOf arg ∉ t.argKeys) =
      pairs.filter fun arg => keyOf arg ∉ t.argKeys) :
    (ToolArguments.named (Json.settle (pairs'.map member))).render t =
      (ToolArguments.named (Json.settle (pairs.map member))).render t := by
  refine ToolArguments.render_congr (fun a ha => ?_) ?_
  · have hlast : lastWith pairs' a.key = lastWith pairs a.key := by
      rw [lastWith_eq, lastWith_eq, hdeclared a.key (List.mem_map_of_mem ha)]
    rw [ToolArguments.partFor, ToolArguments.partFor, Json.find?_settle, Json.find?_settle,
      find?_reverse_members, find?_reverse_members, hlast]
  · have hextras (pairs : List String) :
        ToolArguments.extras t (Json.settle (pairs.map member)) =
          Json.settle ((pairs.filter fun arg => keyOf arg ∉ t.argKeys).map member) := by
      rw [ToolArguments.extras, Json.filter_settle fun key => key ∉ t.argKeys, List.filter_map]
      rfl
    rw [hextras, hextras, hothers]

/-- The place of an argument matters for a tool: its key is not declared, or it is given more than
once. -/
def IsPlaced (t : Tool) (pairs : List String) (arg : String) : Prop :=
  keyOf arg ∉ t.argKeys ∨ 1 < (pairs.map keyOf).count (keyOf arg)

instance (t : Tool) (pairs : List String) (arg : String) : Decidable (IsPlaced t pairs arg) :=
  inferInstanceAs (Decidable (_ ∨ _))

/-- The arguments are reordered, and those whose place matters keep their order. -/
structure Reordered (t : Tool) (pairs pairs' : List String) : Prop where
  perm : pairs'.Perm pairs
  placed : pairs'.filter (IsPlaced t pairs) = pairs.filter (IsPlaced t pairs)

/-- Arguments whose place matters are found in the same order. -/
theorem Reordered.filter_eq {t : Tool} (h : Reordered t pairs pairs') {keep : String → Bool}
    (hkeep : ∀ arg, keep arg → IsPlaced t pairs arg) : pairs'.filter keep = pairs.filter keep := by
  have hthrough (args : List String) :
      args.filter keep = (args.filter (IsPlaced t pairs)).filter keep := by
    rw [List.filter_filter]
    refine List.filter_congr fun arg _ => ?_
    cases hk : keep arg with
    | true => simpa using hkeep arg hk
    | false => rfl
  rw [hthrough, h.placed, ← hthrough]

/-- The arguments of each key are found in the same order. -/
theorem Reordered.filter_key_eq {t : Tool} (h : Reordered t pairs pairs') (key : String) :
    pairs'.filter (fun arg => keyOf arg = key) = pairs.filter fun arg => keyOf arg = key := by
  by_cases hcount : 1 < (pairs.map keyOf).count key
  · refine h.filter_eq fun arg harg => .inr ?_
    rwa [of_decide_eq_true harg]
  · -- One argument has the key at most, so that there is nothing to reorder.
    have hperm := h.perm.filter fun arg => keyOf arg = key
    have hlength : (pairs.filter fun arg => keyOf arg = key).length ≤ 1 := by
      rw [List.count, List.countP_map, List.countP_eq_length_filter] at hcount
      exact Nat.not_lt.mp hcount
    match hfilter : pairs.filter fun arg => keyOf arg = key with
    | [] => exact List.perm_nil.mp (hfilter ▸ hperm)
    | [arg] => exact List.perm_singleton.mp (hfilter ▸ hperm)
    | _ :: _ :: _ => simp [hfilter] at hlength

/-- The members of reordered arguments have the same text for the tool. -/
theorem Reordered.render_eq {t : Tool} (h : Reordered t pairs pairs') :
    (ToolArguments.named (Json.settle (pairs'.map member))).render t =
      (ToolArguments.named (Json.settle (pairs.map member))).render t :=
  render_members_congr (fun key _ => h.filter_key_eq key)
    (h.filter_eq fun _ harg => .inl (of_decide_eq_true harg))

/-- Arguments with distinct and declared keys may be given in any order. -/
theorem reordered_of_nodup {t : Tool} (hperm : pairs'.Perm pairs)
    (hnodup : (pairs.map keyOf).Nodup) (hdeclared : ∀ arg ∈ pairs, keyOf arg ∈ t.argKeys) :
    Reordered t pairs pairs' where
  perm := hperm
  placed := by
    have hfree : ∀ arg ∈ pairs, ¬ IsPlaced t pairs arg := by
      rintro arg harg (hkey | hcount)
      · exact hkey (hdeclared arg harg)
      · exact absurd (List.nodup_iff_count_le_one.mp hnodup (keyOf arg)) (Nat.not_le.mpr hcount)
    rw [List.filter_eq_nil_iff.mpr fun arg harg => by simpa using hfree arg (hperm.mem_iff.mp harg),
      List.filter_eq_nil_iff.mpr fun arg harg => by simpa using hfree arg harg]

/-- The text that a tool is called with, if the arguments are not refused. -/
def rendered? (t : Tool) (pairs raw : List String) : Option String :=
  (toolArguments pairs raw).toOption.map (ToolArguments.render t)

/-- Reordered arguments have the same text for the tool. -/
theorem rendered?_of_reordered {t : Tool} (h : Reordered t pairs pairs') (raw : List String) :
    rendered? t pairs' raw = rendered? t pairs raw := by
  have hnil : pairs' = [] ↔ pairs = [] := by
    rw [← List.length_eq_zero_iff, h.perm.length_eq, List.length_eq_zero_iff]
  by_cases hall : ∀ arg ∈ pairs, IsPair arg
  · have hall' : ∀ arg ∈ pairs', IsPair arg := fun arg harg => hall arg (h.perm.mem_iff.mp harg)
    rw [rendered?, rendered?, toolArguments_of_pairs hall', toolArguments_of_pairs hall]
    simp only [hnil]
    split_ifs
    · rfl
    · rfl
    · exact congrArg some h.render_eq
    · rfl
  · have hsome : ∃ arg ∈ pairs, ¬ IsPair arg := by simpa using hall
    have hsome' : ∃ arg ∈ pairs', ¬ IsPair arg := by simpa only [h.perm.mem_iff] using hsome
    obtain ⟨e, hrefused⟩ := exists_refused_of_malformed raw hsome
    obtain ⟨e', hrefused'⟩ := exists_refused_of_malformed raw hsome'
    rw [rendered?, rendered?, hrefused.eq_error, hrefused'.eq_error]
    rfl

/-- The normal form comes to the same as the arguments. -/
theorem toolArguments_normalForm (hall : ∀ arg ∈ pairs, IsPair arg) (raw : List String) :
    toolArguments (normalForm pairs) raw = toolArguments pairs raw := by
  have hall' : ∀ arg ∈ normalForm pairs, IsPair arg := fun arg harg =>
    hall arg (isLast_of_mem_normalForm harg).mem
  rw [toolArguments_of_pairs hall', toolArguments_of_pairs hall, settle_members_normalForm]
  simp only [normalForm_eq_nil_iff]

/-! ## Calling a tool -/

/-- Reordered pairs come to the same call. -/
theorem execTool_of_reordered {skill tool : String} (c : Context) (fs : FileSystem)
    (hall : ∀ arg ∈ pairs, IsPair arg) (hperm : pairs'.Perm pairs) (raw : List String)
    (h : ∀ s t, c.findSkill fs skill = .ok s → s.manifest.findTool? tool = some t →
      Reordered t pairs pairs') :
    execTool c fs skill tool pairs' raw = execTool c fs skill tool pairs raw := by
  have hnil : pairs' = [] ↔ pairs = [] := by
    rw [← List.length_eq_zero_iff, hperm.length_eq, List.length_eq_zero_iff]
  have hall' : ∀ arg ∈ pairs', IsPair arg := fun arg harg => hall arg (hperm.mem_iff.mp harg)
  rw [execTool, execTool, toolArguments_of_pairs hall', toolArguments_of_pairs hall]
  simp only [hnil]
  split_ifs
  · rfl
  · rfl
  · cases hskill : c.findSkill fs skill with
    | error e => rfl
    | ok s => simp only [callTool_congr _ fun t ht => (h s t hskill ht).render_eq]
  · rfl

/-- How arguments are collected. They are refused if there are pairs and raw words, or if there are
no raw words and an argument has no equals sign. Pairs make an object that has each key where it is
given first, with the value that it is given last. So the normal form of pairs comes to the same,
and for a tool also every order in which the pairs whose place matters keep theirs; these are none
where the keys are distinct and declared. -/
structure CollectsPairs (pairs raw : List String) : Prop where
  fails : (∃ e, toolArguments pairs raw = .error e) ↔
    (pairs ≠ [] ∧ raw ≠ []) ∨ (raw = [] ∧ ∃ arg ∈ pairs, ¬ IsPair arg)
  cause : ∀ e, toolArguments pairs raw = .error e ↔ Refused pairs raw e
  cut : ∀ arg ∈ pairs, IsPair arg →
    arg = keyOf arg ++ "=" ++ valueOf arg ∧ ¬ IsPair (keyOf arg)
  object : pairs ≠ [] → raw = [] → (∀ arg ∈ pairs, IsPair arg) →
    toolArguments pairs raw = .ok (.named ((normalForm pairs).map fun arg =>
      (keyOf arg, .string (valueOf arg))))
  keys : (normalForm pairs).map keyOf = (pairs.map keyOf).eraseDups
  last : ∀ arg ∈ normalForm pairs, IsLast pairs arg
  normal : (∀ arg ∈ pairs, IsPair arg) →
    toolArguments (normalForm pairs) raw = toolArguments pairs raw ∧
      ∀ t, rendered? t (normalForm pairs) raw = rendered? t pairs raw
  reordered : ∀ t pairs', Reordered t pairs pairs' →
    rendered? t pairs' raw = rendered? t pairs raw
  permuted : ∀ (t : Tool) (pairs' : List String), pairs'.Perm pairs → (pairs.map keyOf).Nodup →
    (∀ arg ∈ pairs, keyOf arg ∈ t.argKeys) → rendered? t pairs' raw = rendered? t pairs raw
  executed : ∀ (c : Context) (fs : FileSystem) (skill tool : String) (pairs' : List String),
    (∀ arg ∈ pairs, IsPair arg) → pairs'.Perm pairs →
      (∀ s t, c.findSkill fs skill = .ok s → s.manifest.findTool? tool = some t →
        Reordered t pairs pairs') →
      execTool c fs skill tool pairs' raw = execTool c fs skill tool pairs raw

/-- Arguments are collected in this way, whatever they are. -/
theorem toolArguments_collectsPairs (pairs raw : List String) : CollectsPairs pairs raw where
  fails := by
    rw [← exists_refused_iff]
    exact exists_congr (toolArguments_eq_error_iff pairs raw)
  cause := toolArguments_eq_error_iff pairs raw
  cut := fun _ _ hsign => hsign.cut
  object := by
    rintro hpairs rfl hall
    rw [toolArguments_of_pairs hall, if_neg hpairs, if_pos rfl, settle_members]
    rfl
  keys := keys_normalForm pairs
  last := fun _ harg => isLast_of_mem_normalForm harg
  normal := fun hall => by
    have hsame := toolArguments_normalForm hall raw
    exact ⟨hsame, fun t => by rw [rendered?, rendered?, hsame]⟩
  reordered := fun _ _ h => rendered?_of_reordered h raw
  permuted := fun _ _ hperm hnodup hdeclared =>
    rendered?_of_reordered (reordered_of_nodup hperm hnodup hdeclared) raw
  executed := fun c fs _ _ _ hall hperm h => execTool_of_reordered c fs hall hperm raw h

end Repertoire.CommandLine
