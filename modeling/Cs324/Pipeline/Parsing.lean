import Cs324.Pipeline.Arguments

namespace Cs324.Pipeline
set_option autoImplicit true

/-- The two redirections. -/
inductive Direction
  | input | output
  deriving DecidableEq

def Direction.operator : Direction → List UInt8
  | input => chars "<"
  | output => chars ">"

def pipeSign : List UInt8 := chars "|"

def IsOperator (arg : List UInt8) : Prop := arg = chars "<" ∨ arg = chars ">" ∨ arg = chars "|"

instance (arg : List UInt8) : Decidable (IsOperator arg) := inferInstanceAs (Decidable (_ ∨ _))

/-- What may stand behind the first word of a command. -/
inductive Item
  | word (text : List UInt8)
  | redirect (direction : Direction) (file : List UInt8)
  deriving DecidableEq

namespace Item

/-- The word, or the name of the file. -/
def name : Item → List UInt8
  | word text => text
  | redirect _ file => file

def args : Item → List (List UInt8)
  | word text => [text]
  | redirect direction file => [direction.operator, file]

def isWord : Item → Bool
  | word _ => true
  | redirect _ _ => false

def text? : Item → Option (List UInt8)
  | word text => some text
  | redirect _ _ => none

/-- What `parseargs` leaves in `argv`. -/
def left : Item → List (Option (List UInt8))
  | word text => [some text]
  | redirect _ file => [none, some file]

end Item

/-- A command of a pipeline. -/
structure Command where
  first : List UInt8
  items : List Item
  plain : ¬IsOperator first ∧ ∀ item ∈ items, ¬IsOperator item.name

namespace Command

def args (c : Command) : List (List UInt8) := c.first :: c.items.flatMap Item.args

/-- The arguments that the program is to be called with. -/
def words (c : Command) : List (List UInt8) := c.first :: c.items.filterMap Item.text?

/-- No word stands behind a redirection. -/
def RedirectionsLast (c : Command) : Prop :=
  ∀ item ∈ c.items.dropWhile Item.isWord, item.isWord = false

instance (c : Command) : Decidable c.RedirectionsLast :=
  inferInstanceAs (Decidable (∀ item ∈ _, _ = _))

def left (c : Command) : List (Option (List UInt8)) := some c.first :: c.items.flatMap Item.left

end Command

/-- The arguments of a pipeline. -/
def rendered : List Command → List (List UInt8)
  | [] => []
  | [c] => c.args
  | c :: cs => c.args ++ pipeSign :: rendered cs

/-- What is left of them in `argv`. -/
def leftOf : List Command → List (Option (List UInt8))
  | [] => []
  | [c] => c.left
  | c :: cs => c.left ++ none :: leftOf cs

def Cmd.redir (cmd : Cmd) : Direction → Int
  | .input => cmd.stdinRedir
  | .output => cmd.stdoutRedir

def Cmd.setRedir (cmd : Cmd) (index : Int) : Direction → Cmd
  | .input => { cmd with stdinRedir := index }
  | .output => { cmd with stdoutRedir := index }

/-- The redirections of a command whose items start at `argindex`. -/
def Cmd.redirected (cmd : Cmd) (argindex : Nat) : List Item → Cmd
  | [] => cmd
  | .word _ :: items => cmd.redirected (argindex + 1) items
  | .redirect direction _ :: items =>
    (cmd.setRedir (argindex + 1) direction).redirected (argindex + 2) items

/-- The commands of a pipeline that starts at an index of `argv`. -/
def cmdsFrom (start : Nat) : List Command → List Cmd
  | [] => []
  | c :: cs =>
    (⟨start, -1, -1⟩ : Cmd).redirected (start + 1) c.items ::
      cmdsFrom (start + c.args.length + 1) cs

/-- The `NULL`-terminated vector at an index of `argv`. -/
def vector (argv : List (Option (List UInt8))) (start : Nat) : List (List UInt8) :=
  ((argv.drop start).takeWhile Option.isSome).reduceOption

theorem parseLoop_word (hp : ¬IsOperator arg) (rest : List (List UInt8)) (argindex : Nat)
    (cmd : Cmd) : parseLoop (arg :: rest) argindex cmd =
      (some arg :: (parseLoop rest (argindex + 1) cmd).1,
        (parseLoop rest (argindex + 1) cmd).2) := by
  cases rest with
  | nil =>
    rw [parseLoop]
    exact congrArg (·, [cmd]) (if_neg hp)
  | cons next rest =>
    simp only [IsOperator, not_or] at hp
    rw [parseLoop, if_neg hp.1, if_neg hp.2.1, if_neg hp.2.2]

theorem parseLoop_redirect (direction : Direction) (file : List UInt8) (rest : List (List UInt8))
    (argindex : Nat) (cmd : Cmd) : parseLoop (direction.operator :: file :: rest) argindex cmd =
      let parsed := parseLoop rest (argindex + 2) (cmd.setRedir (argindex + 1) direction)
      (none :: some file :: parsed.1, parsed.2) := by
  cases direction with
  | input =>
    rw [parseLoop]
    exact if_pos rfl
  | output =>
    rw [parseLoop, if_neg (by decide)]
    exact if_pos rfl

theorem parseLoop_pipe (first : List UInt8) (rest : List (List UInt8)) (argindex : Nat)
    (cmd : Cmd) : parseLoop (pipeSign :: first :: rest) argindex cmd =
      let parsed := parseLoop rest (argindex + 2) ⟨argindex + 1, -1, -1⟩
      (none :: some first :: parsed.1, cmd :: parsed.2) := by
  rw [parseLoop, if_neg (by decide), if_neg (by decide)]
  exact if_pos rfl

/-- The items of one command. -/
theorem parseLoop_items (hp : ∀ item ∈ items, ¬IsOperator item.name) (rest : List (List UInt8))
    (argindex : Nat) (cmd : Cmd) :
    parseLoop (items.flatMap Item.args ++ rest) argindex cmd =
      let parsed := parseLoop rest (argindex + (items.flatMap Item.args).length)
        (cmd.redirected argindex items)
      (items.flatMap Item.left ++ parsed.1, parsed.2) := by
  induction items generalizing argindex cmd with
  | nil => rfl
  | cons item items ih =>
    obtain ⟨hitem, hitems⟩ := List.forall_mem_cons.1 hp
    cases item with
    | word text =>
      have hlength : argindex + 1 + (items.flatMap Item.args).length =
          argindex + ((Item.word text :: items).flatMap Item.args).length := by
        simp only [List.flatMap_cons, Item.args, List.length_append, List.length_singleton]
        omega
      have hargs : (Item.word text :: items).flatMap Item.args ++ rest =
          text :: (items.flatMap Item.args ++ rest) := rfl
      have hword : ¬IsOperator text := hitem
      rw [hargs, parseLoop_word hword, ih hitems, hlength]
      rfl
    | redirect direction file =>
      have hlength : argindex + 2 + (items.flatMap Item.args).length =
          argindex + ((Item.redirect direction file :: items).flatMap Item.args).length := by
        simp only [List.flatMap_cons, Item.args, List.length_append, List.length_cons,
          List.length_nil]
        omega
      have hargs : (Item.redirect direction file :: items).flatMap Item.args ++ rest =
          direction.operator :: file :: (items.flatMap Item.args ++ rest) := rfl
      rw [hargs, parseLoop_redirect, ih hitems, hlength]
      rfl

theorem rendered_head (c : Command) (cs : List Command) :
    rendered (c :: cs) = c.first :: (rendered (c :: cs)).tail := by
  cases cs <;> rfl

theorem leftOf_head (c : Command) (cs : List Command) :
    leftOf (c :: cs) = some c.first :: (leftOf (c :: cs)).tail := by
  cases cs <;> rfl

/-- The commands from one on, whose first word is not looked at. -/
theorem parseLoop_rendered (c : Command) (cs : List Command) (start : Nat) :
    parseLoop (rendered (c :: cs)).tail (start + 1) ⟨start, -1, -1⟩ =
      ((leftOf (c :: cs)).tail, cmdsFrom start (c :: cs)) := by
  induction cs generalizing c start with
  | nil =>
    have hargs : (rendered [c]).tail = c.items.flatMap Item.args ++ [] := (List.append_nil _).symm
    rw [hargs, parseLoop_items c.plain.2]
    exact congrArg (·, cmdsFrom start [c]) (List.append_nil _)
  | cons d cs ih =>
    have hargs : (rendered (c :: d :: cs)).tail = c.items.flatMap Item.args ++
        pipeSign :: d.first :: (rendered (d :: cs)).tail := by
      rw [← rendered_head]
      rfl
    have hstart : start + 1 + (c.items.flatMap Item.args).length = start + c.args.length := by
      rw [Command.args, List.length_cons]
      omega
    have hleft : (leftOf (c :: d :: cs)).tail = c.items.flatMap Item.left ++
        none :: some d.first :: (leftOf (d :: cs)).tail := by
      rw [← leftOf_head]
      rfl
    rw [hargs, parseLoop_items c.plain.2, hstart, parseLoop_pipe, hleft]
    have hd : parseLoop (rendered (d :: cs)).tail (start + c.args.length + 2)
        ⟨start + c.args.length + 1, -1, -1⟩ =
        ((leftOf (d :: cs)).tail, cmdsFrom (start + c.args.length + 1) (d :: cs)) := ih d _
    dsimp only
    rw [hd]
    rfl

theorem parseargs_rendered (pipeline : List Command) :
    parseargs (rendered pipeline) = (leftOf pipeline, cmdsFrom 0 pipeline) := by
  cases pipeline with
  | nil => rfl
  | cons c cs =>
    rw [rendered_head, leftOf_head, parseargs, parseLoop_rendered c cs 0]

theorem items_length (items : List Item) :
    (items.flatMap Item.left).length = (items.flatMap Item.args).length := by
  induction items with
  | nil => rfl
  | cons item items ih =>
    rw [List.flatMap_cons, List.flatMap_cons, List.length_append, List.length_append, ih]
    cases item <;> rfl

/-- Where a command of the pipeline is in `argv`, and what `parseargs` says of it. -/
theorem placed {pipeline : List Command} {i : Nat} (hi : pipeline[i]? = some c) (start : Nat) :
    ∃ front back, leftOf pipeline = front ++ (c.left ++ back) ∧
      (back = [] ∨ ∃ more, back = none :: more) ∧
      (cmdsFrom start pipeline)[i]? =
        some ((⟨start + front.length, -1, -1⟩ : Cmd).redirected (start + front.length + 1)
          c.items) := by
  induction pipeline generalizing i start with
  | nil => cases hi
  | cons d ds ih =>
    cases i with
    | zero =>
      cases hi
      cases ds with
      | nil => exact ⟨[], [], (List.append_nil _).symm, .inl rfl, rfl⟩
      | cons e es => exact ⟨[], none :: leftOf (e :: es), rfl, .inr ⟨_, rfl⟩, rfl⟩
    | succ i =>
      cases ds with
      | nil => cases hi
      | cons e es =>
        obtain ⟨front, back, hleft, hback, hcmd⟩ := ih hi (start + d.args.length + 1)
        have hlength : d.left.length = d.args.length := congrArg (· + 1) (items_length d.items)
        refine ⟨d.left ++ none :: front, back, ?_, hback, ?_⟩
        · have hcons : leftOf (d :: e :: es) = d.left ++ none :: leftOf (e :: es) := rfl
          rw [hcons, hleft, List.append_assoc, List.cons_append]
        · have hstart : start + (d.left ++ none :: front).length =
              start + d.args.length + 1 + front.length := by
            rw [List.length_append, List.length_cons, hlength]
            omega
          rw [hstart]
          exact hcmd

theorem takeWhile_items (items : List Item) (hback : back = [] ∨ ∃ more, back = none :: more) :
    ((items.flatMap Item.left ++ back).takeWhile Option.isSome).reduceOption =
      (items.takeWhile Item.isWord).filterMap Item.text? := by
  induction items with
  | nil => rcases hback with rfl | ⟨more, rfl⟩ <;> rfl
  | cons item items ih =>
    cases item with
    | word text => exact congrArg (text :: ·) ih
    | redirect direction file => rfl

/-- A vector goes up to the first redirection. -/
theorem vector_command (front : List (Option (List UInt8))) (c : Command)
    (hback : back = [] ∨ ∃ more, back = none :: more) :
    vector (front ++ (c.left ++ back)) front.length =
      c.first :: (c.items.takeWhile Item.isWord).filterMap Item.text? := by
  rw [vector, List.drop_left, ← takeWhile_items c.items hback]
  rfl

theorem Command.words_iff (c : Command) :
    c.first :: (c.items.takeWhile Item.isWord).filterMap Item.text? = c.words ↔
      c.RedirectionsLast := by
  have hsplit := List.takeWhile_append_dropWhile (p := Item.isWord) (l := c.items)
  have hnone (item : Item) : item.text? = none ↔ item.isWord = false := by
    cases item <;> simp [Item.text?, Item.isWord]
  have hall : c.items.filterMap Item.text? =
      (c.items.takeWhile Item.isWord).filterMap Item.text? ++
        (c.items.dropWhile Item.isWord).filterMap Item.text? := by
    rw [← List.filterMap_append, hsplit]
  rw [words, List.cons.injEq, and_iff_right rfl, RedirectionsLast, hall, eq_comm,
    List.append_right_eq_self, List.filterMap_eq_nil_iff]
  simp only [hnone]

/-- The redirection is absent, or the index of the file of the last item that has this
direction. -/
def IndexesLast (argv : List (Option (List UInt8))) (c : Command) (start : Nat)
    (direction : Direction) (redir : Int) : Prop :=
  (redir = -1 ∧ ∀ file, .redirect direction file ∉ c.items) ∨
    ∃ before file after, c.items = before ++ .redirect direction file :: after ∧
      (∀ other, .redirect direction other ∉ after) ∧
      redir = (start + (before.flatMap Item.args).length + 2 : Nat) ∧
      argv[start + (before.flatMap Item.args).length + 2]? = some (some file)

/-- What `parseargs` says of a command whose vector holds its words. -/
structure Recovered (argv : List (Option (List UInt8))) (c : Command) (cmd : Cmd) : Prop where
  words : vector argv cmd.start = c.words
  stdin : IndexesLast argv c cmd.start .input cmd.stdinRedir
  stdout : IndexesLast argv c cmd.start .output cmd.stdoutRedir

@[simp] theorem setRedir_self (cmd : Cmd) (index : Int) (direction : Direction) :
    (cmd.setRedir index direction).redir direction = index := by
  cases direction <;> rfl

theorem setRedir_other (h : other ≠ direction) (cmd : Cmd) (index : Int) :
    (cmd.setRedir index other).redir direction = cmd.redir direction := by
  cases direction <;> cases other <;> first | rfl | exact absurd rfl h

@[simp] theorem redirected_start (cmd : Cmd) (argindex : Nat) (items : List Item) :
    (cmd.redirected argindex items).start = cmd.start := by
  induction items generalizing cmd argindex with
  | nil => rfl
  | cons item items ih =>
    cases item with
    | word text => exact ih _ _
    | redirect direction file =>
      refine (ih _ _).trans ?_
      cases direction <;> rfl

theorem redirected_cases (direction : Direction) (cmd : Cmd) (argindex : Nat)
    (items : List Item) :
    ((cmd.redirected argindex items).redir direction = cmd.redir direction ∧
      ∀ file, .redirect direction file ∉ items) ∨
    ∃ before file after, items = before ++ .redirect direction file :: after ∧
      (∀ other, .redirect direction other ∉ after) ∧
      (cmd.redirected argindex items).redir direction =
        (argindex + (before.flatMap Item.args).length + 1 : Nat) := by
  induction items generalizing cmd argindex with
  | nil => exact .inl ⟨rfl, fun _ => List.not_mem_nil⟩
  | cons item items ih =>
    cases item with
    | word text =>
      rcases ih cmd (argindex + 1) with ⟨he, hn⟩ | ⟨before, file, after, rfl, hn, he⟩
      · exact .inl ⟨he, fun file => by simpa using hn file⟩
      · refine .inr ⟨.word text :: before, file, after, rfl, hn, he.trans (congrArg _ ?_)⟩
        simp only [List.flatMap_cons, Item.args, List.length_append, List.length_singleton]
        omega
    | redirect other file =>
      rcases ih (cmd.setRedir (argindex + 1) other) (argindex + 2) with
        ⟨he, hn⟩ | ⟨before, last, after, rfl, hn, he⟩
      · by_cases hd : other = direction
        · subst hd
          exact .inr ⟨[], file, items, rfl, hn, he.trans (setRedir_self _ _ _)⟩
        · refine .inl ⟨he.trans (setRedir_other hd _ _), fun f hm => ?_⟩
          rcases List.mem_cons.1 hm with heq | hm
          · exact hd (Item.redirect.inj heq).1.symm
          · exact hn f hm
      · refine .inr ⟨.redirect other file :: before, last, after, rfl, hn,
          he.trans (congrArg _ ?_)⟩
        simp only [List.flatMap_cons, Item.args, List.length_append, List.length_cons,
          List.length_nil]
        omega

/-- The file of a redirection is where its name was. -/
theorem file_kept (front back : List (Option (List UInt8))) {c : Command}
    (hitems : c.items = before ++ .redirect direction file :: after) :
    (front ++ (c.left ++ back))[front.length + (before.flatMap Item.args).length + 2]? =
      some (some file) := by
  have hleft : front ++ (c.left ++ back) = (front ++ some c.first :: before.flatMap Item.left) ++
      none :: some file :: (after.flatMap Item.left ++ back) := by
    rw [Command.left, hitems, List.flatMap_append, List.flatMap_cons, List.append_assoc,
      List.cons_append, List.cons_append, List.append_assoc, List.append_assoc]
    rfl
  have hlength : front.length + (before.flatMap Item.args).length + 2 =
      (front ++ some c.first :: before.flatMap Item.left).length + 1 := by
    rw [List.length_append, List.length_cons, items_length]
    omega
  rw [hleft, hlength]
  exact getElem?_next _ _ none (some file)

theorem indexesLast (front back : List (Option (List UInt8))) (c : Command)
    (direction : Direction) :
    IndexesLast (front ++ (c.left ++ back)) c front.length direction
      (((⟨front.length, -1, -1⟩ : Cmd).redirected (front.length + 1) c.items).redir direction) := by
  rcases redirected_cases direction ⟨front.length, -1, -1⟩ (front.length + 1) c.items with
    ⟨he, hn⟩ | ⟨before, file, after, hitems, hn, he⟩
  · refine .inl ⟨he.trans ?_, hn⟩
    cases direction <;> rfl
  · refine .inr ⟨before, file, after, hitems, hn, he.trans (congrArg _ ?_),
      file_kept front back hitems⟩
    omega

/-- Every command of a pipeline is found, with its redirections, and with the words before them. -/
theorem parsed {pipeline : List Command} {i : Nat} (hi : pipeline[i]? = some c) :
    ∃ cmd, (parseargs (rendered pipeline)).2[i]? = some cmd ∧
      vector (parseargs (rendered pipeline)).1 cmd.start =
        c.first :: (c.items.takeWhile Item.isWord).filterMap Item.text? ∧
      ∀ direction, IndexesLast (parseargs (rendered pipeline)).1 c cmd.start direction
        (cmd.redir direction) := by
  obtain ⟨front, back, hleft, hback, hcmd⟩ := placed hi 0
  rw [parseargs_rendered, hleft]
  refine ⟨_, hcmd, ?_, fun direction => ?_⟩
  · rw [redirected_start, Nat.zero_add]
    exact vector_command front c hback
  · rw [redirected_start, Nat.zero_add]
    exact indexesLast front back c direction

theorem cmdsFrom_length (start : Nat) (pipeline : List Command) :
    (cmdsFrom start pipeline).length = pipeline.length := by
  induction pipeline generalizing start with
  | nil => rfl
  | cons c cs ih => exact congrArg (· + 1) (ih _)

/-- `parseargs` recovers a pipeline in which the redirections of a command come behind its words. -/
theorem pipeline_recovered {pipeline : List Command} (h : ∀ c ∈ pipeline, c.RedirectionsLast) :
    (parseargs (rendered pipeline)).2.length = pipeline.length ∧
      ∀ (i : Nat) c, pipeline[i]? = some c → ∃ cmd,
        (parseargs (rendered pipeline)).2[i]? = some cmd ∧
          Recovered (parseargs (rendered pipeline)).1 c cmd := by
  constructor
  · rw [parseargs_rendered, cmdsFrom_length]
  · intro i c hi
    obtain ⟨cmd, hcmd, hvector, hredirs⟩ := parsed hi
    have hlast := h c (List.mem_of_getElem? hi)
    exact ⟨cmd, hcmd, hvector.trans (c.words_iff.2 hlast), hredirs .input, hredirs .output⟩

/-- `/bin/cat < in.txt | /bin/grep [0-9] > out.txt` -/
def catGrep : List Command :=
  [⟨chars "/bin/cat", [.redirect .input (chars "in.txt")], by decide⟩,
    ⟨chars "/bin/grep", [.word (chars "[0-9]"), .redirect .output (chars "out.txt")], by decide⟩]

theorem catGrep_recovered : (parseargs (rendered catGrep)).2.length = 2 ∧
    ∀ (i : Nat) c, catGrep[i]? = some c → ∃ cmd, (parseargs (rendered catGrep)).2[i]? = some cmd ∧
      Recovered (parseargs (rendered catGrep)).1 c cmd :=
  pipeline_recovered (by decide)

/-- Each command is called with all its words exactly when none of them stands behind a
redirection. -/
theorem words_kept_iff (pipeline : List Command) :
    (∀ (i : Nat) c, pipeline[i]? = some c → ∃ cmd,
      (parseargs (rendered pipeline)).2[i]? = some cmd ∧
        vector (parseargs (rendered pipeline)).1 cmd.start = c.words) ↔
      ∀ c ∈ pipeline, c.RedirectionsLast := by
  constructor
  · intro h c hc
    obtain ⟨i, hi⟩ := List.mem_iff_getElem?.1 hc
    obtain ⟨cmd, hcmd, hwords⟩ := h i c hi
    obtain ⟨cmd', hcmd', hvector, -⟩ := parsed hi
    cases hcmd.symm.trans hcmd'
    exact c.words_iff.1 (hvector.symm.trans hwords)
  · intro h i c hi
    obtain ⟨cmd, hcmd, hvector, -⟩ := parsed hi
    exact ⟨cmd, hcmd, hvector.trans (c.words_iff.2 (h c (List.mem_of_getElem? hi)))⟩

/-- `/bin/grep < in.txt [0-9]` -/
def grepBehind : Command :=
  ⟨chars "/bin/grep", [.redirect .input (chars "in.txt"), .word (chars "[0-9]")], by decide⟩

/-- The pattern is not passed to the program. -/
theorem word_swallowed :
    ¬∀ (i : Nat) c, [grepBehind][i]? = some c → ∃ cmd,
      (parseargs (rendered [grepBehind])).2[i]? = some cmd ∧
        vector (parseargs (rendered [grepBehind])).1 cmd.start = c.words := by
  intro h
  obtain ⟨cmd, hcmd, hwords⟩ := h 0 grepBehind rfl
  have hparsed : (parseargs (rendered [grepBehind])).2[0]? = some ⟨0, 2, -1⟩ := by decide
  cases hparsed.symm.trans hcmd
  revert hwords
  decide

end Cs324.Pipeline
