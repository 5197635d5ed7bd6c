import SengOs.Shell.Boot

/-!
# The shell among the other processes

From `sti` on, the tasks and the threads of `race` and `racem` draw on the screen of the shell, with
`vga_set_color`, `vga_puts` and `vga_printf`. A use of the screen is a character, a store of the
colour or `vga_clear`, and `others n` is what they draw before use `n` of the shell: they come in
within a line, and between the two colours of `vga_puts_color` as well. A switch inside
`vga_putchar` or `vga_clear` is left out. There, between the step of the cursor and its wrap,
another process would write behind the row.

The session goes as `shellRun`, which has the screen to itself (`Follows`). What the others draw
changes nothing of what the shell reads, prints and does to the files. Between two commands the
cursor is on the screen, and the colour is the one that the commands have left or one that the
others have set (`session_safe`).
-/

namespace SengOs.Shell

open ByteMemory CString Fs Kernel
open Console (Screen VgaColor InFrame vgaAttr vgaPutchar vgaClear vgaSetColor putAll OnScreen)

/-! ## The display -/

/-- A use of the screen by another process. -/
inductive Drawing where
  | putchar (c : Byte)
  | setColor (fg bg : VgaColor)

def Drawing.run : Drawing → Screen → Screen
  | putchar c, screen => vgaPutchar c screen
  | setColor fg bg, screen => vgaSetColor fg bg screen

/-- The screen, and how often the shell has used it. -/
structure Display where
  screen : Screen
  uses : Nat

/-- The shell uses the screen, and the others have drawn before. -/
def Display.use (others : Nat → List Drawing) (f : Screen → Screen) (d : Display) : Display :=
  ⟨f ((others d.uses).foldl (fun screen g => g.run screen) d.screen), d.uses + 1⟩

def Display.putchar (others : Nat → List Drawing) (c : Byte) (d : Display) : Display :=
  d.use others (vgaPutchar c)

def Display.puts (others : Nat → List Drawing) (s : List Byte) (d : Display) : Display :=
  s.foldl (fun d c => d.putchar others c) d

/-- `VgaCall.run` on a display. `vga_puts_color` reads the colour that it puts back. -/
def VgaCall.runAmong (others : Nat → List Drawing) : VgaCall → Display → Display
  | puts s, d => d.puts others s
  | putsColor s fg bg, d =>
    let d := d.use others id
    let saved := d.screen.curAttr
    let d := (d.use others (vgaSetColor fg bg)).puts others s
    d.use others fun screen => { screen with curAttr := saved }
  | printf fmt args, d => d.puts others (((Print.printf fmt args).text).getD [])
  | setColor fg bg, d => d.use others (vgaSetColor fg bg)
  | clear bg, d => d.use others (vgaClear bg)

def runVgaAmong (others : Nat → List Drawing) (calls : List VgaCall) (d : Display) : Display :=
  calls.foldl (fun d call => call.runAmong others d) d

/-! ## `shell_run` -/

/-- `Session`, with a display. -/
structure SharedSession where
  display : Display
  buf : Int → Byte
  shift : Bool
  codes : List Byte
  fs : FsState

/-- The shell has the screen to itself until now. -/
def Session.share (s : Session) : SharedSession :=
  ⟨⟨s.screen, 0⟩, s.buf, s.shift, s.codes, s.fs⟩

/-- `Session.round` -/
def SharedSession.round (program : Program) (others : Nat → List Drawing) (ambient : Ambient)
    (u : SharedSession) : Option (Round × SharedSession) :=
  let call : Console.ReadlineCall Display := ⟨256, u.buf, prompt.runAmong others u.display⟩
  let r := call.run (Display.putchar others) u.shift u.codes
  if r.done then
    let line := Line.ofBuffer fun j => r.line.buf.get j
    let command := shellDispatch line.text
    let out := command.exec program.link ambient u.fs
    some (⟨line, ambient, out.1, command.kernelCalls program.image⟩,
      ⟨runVgaAmong others out.1 r.line.display, r.line.buf.get, r.shift, r.codes, out.2⟩)
  else none

/-- `shellLoop` -/
def sharedLoop (program : Program) (others : Nat → List Drawing) :
    Nat → (Nat → Ambient) → SharedSession → List Round × SharedSession
  | 0, _, u => ([], u)
  | n + 1, ambient, u =>
    match u.round program others (ambient 0) with
    | none => ([], u)
    | some (r, u') =>
      let rest := sharedLoop program others n (fun i => ambient (i + 1)) u'
      (r :: rest.1, rest.2)

/-- `shell_run`, with what the others draw meanwhile. -/
def sharedRun (program : Program) (others : Nat → List Drawing) (ambient : Nat → Ambient)
    (u : SharedSession) : List Round × SharedSession :=
  sharedLoop program others (u.codes.length + 1) ambient
    { u with display := greeting.runAmong others u.display }

/-! ## The two screens -/

/-- The colour is `attr`, or one that the others have set. -/
def ColourAmong (others : Nat → List Drawing) (attr : Byte) (screen : Screen) : Prop :=
  screen.curAttr = attr ∨
    ∃ n fg bg, Drawing.setColor fg bg ∈ others n ∧ screen.curAttr = vgaAttr fg bg

/-- The display beside the screen as it is without the others. -/
structure Beside (others : Nat → List Drawing) (d : Display) (screen : Screen) : Prop where
  onScreen : OnScreen d.screen
  colour : ColourAmong others screen.curAttr d.screen
  alone : (∀ n, others n = []) → d.screen = screen

section Beside

variable {others : Nat → List Drawing} {d : Display} {screen screen' : Screen}

theorem onScreen_setColor {s : Screen} (h : OnScreen s) (fg bg : VgaColor) :
    OnScreen (vgaSetColor fg bg s) :=
  onScreen_run h (.setColor fg bg)

/-- What the others draw keeps the cursor on the screen. -/
theorem drawn_others {attr : Byte} {s : Screen} (hon : OnScreen s)
    (hcolour : ColourAmong others attr s) (n : Nat) :
    OnScreen ((others n).foldl (fun screen g => g.run screen) s) ∧
      ColourAmong others attr ((others n).foldl (fun screen g => g.run screen) s) := by
  refine List.foldlRecOn (motive := fun t => OnScreen t ∧ ColourAmong others attr t) (others n) _
    ⟨hon, hcolour⟩ fun t ht g hg => ?_
  cases g with
  | putchar c =>
    refine ⟨ht.1.vgaPutchar c, ?_⟩
    show ColourAmong others attr (vgaPutchar c t)
    rw [ColourAmong, curAttr_vgaPutchar]
    exact ht.2
  | setColor fg bg => exact ⟨onScreen_setColor ht.1 fg bg, .inr ⟨n, fg, bg, hg, rfl⟩⟩

/-- A use of the screen, and what it does without the others. -/
theorem Beside.use (h : Beside others d screen) {f : Screen → Screen}
    (hon : ∀ s, OnScreen s → OnScreen (f s))
    (hcolour : ∀ s, ColourAmong others screen.curAttr s →
      ColourAmong others screen'.curAttr (f s))
    (halone : (∀ n, others n = []) → f screen = screen') :
    Beside others (d.use others f) screen' := by
  obtain ⟨hdrawn, hattr⟩ := drawn_others h.onScreen h.colour d.uses
  refine ⟨hon _ hdrawn, hcolour _ hattr, fun hnone => ?_⟩
  rw [Display.use, hnone d.uses, List.foldl_nil, h.alone hnone]
  exact halone hnone

theorem Beside.putchar (h : Beside others d screen) (c : Byte) :
    Beside others (d.putchar others c) (vgaPutchar c screen) := by
  refine h.use (fun s hs => hs.vgaPutchar c) (fun s hs => ?_) fun _ => rfl
  rw [ColourAmong, curAttr_vgaPutchar, curAttr_vgaPutchar]
  exact hs

theorem Beside.puts (h : Beside others d screen) (s : List Byte) :
    Beside others (d.puts others s) (putAll s screen) := by
  induction s generalizing d screen with
  | nil => exact h
  | cons c s ih => exact ih (h.putchar c)

theorem Beside.setColor (h : Beside others d screen) (fg bg : VgaColor) :
    Beside others (d.use others (vgaSetColor fg bg)) (vgaSetColor fg bg screen) :=
  h.use (fun _ hs => onScreen_setColor hs fg bg) (fun _ _ => .inl rfl) fun _ => rfl

theorem Beside.runAmong (h : Beside others d screen) (call : VgaCall) :
    Beside others (call.runAmong others d) (call.run screen) := by
  cases call with
  | puts s => exact h.puts s
  | printf fmt args => exact h.puts _
  | setColor fg bg => exact h.setColor fg bg
  | clear bg =>
    have hclear (t : Screen) : (vgaClear bg t).curAttr = vgaAttr .lightGrey bg :=
      curAttr_run (.clear bg) t
    exact h.use (fun t ht => onScreen_run ht (.clear bg))
      (fun t _ => .inl ((hclear t).trans (hclear screen).symm)) fun _ => rfl
  | putsColor s fg bg =>
    -- the colour that is read is put back, whatever is set meanwhile
    have hread : Beside others (d.use others id) screen :=
      h.use (fun _ hs => hs) (fun _ hs => hs) fun _ => rfl
    refine ((hread.setColor fg bg).puts s).use
      (f := fun t => { t with curAttr := (d.use others id).screen.curAttr })
      (fun t ht => ⟨ht.row, ht.col, ht.writes, ht.shown⟩) (fun _ _ => hread.colour) fun hnone => ?_
    rw [hread.alone hnone]
    rfl

theorem Beside.runVgaAmong (h : Beside others d screen) (calls : List VgaCall) :
    Beside others (runVgaAmong others calls d) (runVga calls screen) := by
  induction calls generalizing d screen with
  | nil => exact h
  | cons call calls ih => exact ih (h.runAmong call)

end Beside

/-! ## The two sessions -/

/-- The session among the others goes as the one without them. -/
structure Follows (others : Nat → List Drawing) (u : SharedSession) (s : Session) : Prop where
  display : Beside others u.display s.screen
  buf : u.buf = s.buf
  shift : u.shift = s.shift
  codes : u.codes = s.codes
  fs : u.fs = s.fs

section Follows

variable {program : Program} {others : Nat → List Drawing} {u : SharedSession} {s : Session}

theorem Follows.round (h : Follows others u s) (program : Program) (ambient : Ambient) :
    (u.round program others ambient = none ∧ s.round program ambient = none) ∨
      ∃ r u' s', u.round program others ambient = some (r, u') ∧
        s.round program ambient = some (r, s') ∧ Follows others u' s' := by
  obtain ⟨display, buf, shift, codes, fs⟩ := u
  obtain ⟨hdisplay, rfl, rfl, rfl, rfl⟩ := h
  have halike := Console.readlineLoop_alike (R := Beside others)
    (fun c _ _ hd => hd.putchar c) 256 (s.codes.length + 1) 0 ⟨s.buf, []⟩ s.shift s.codes
    (hdisplay.runAmong prompt)
  unfold SharedSession.round Session.round Session.call Console.ReadlineCall.run Console.kbReadline
  dsimp only at halike ⊢
  revert halike
  generalize Console.readlineLoop (Display.putchar others) 256 _ _ _ _ = r
  generalize Console.readlineLoop vgaPutchar 256 _ _ _ _ = q
  rintro ⟨-, hbuf, hd, hshift, hcodes, hdone⟩
  rw [hbuf, hshift, hcodes, hdone]
  split
  · exact .inr ⟨_, _, _, rfl, rfl, hd.runVgaAmong _, rfl, rfl, rfl, rfl⟩
  · exact .inl ⟨rfl, rfl⟩

/-- The rounds are the same, whatever the others draw. -/
theorem Follows.loop (h : Follows others u s) (n : Nat) (ambient : Nat → Ambient) :
    (sharedLoop program others n ambient u).1 = (shellLoop program n ambient s).1 ∧
      Follows others (sharedLoop program others n ambient u).2
        (shellLoop program n ambient s).2 := by
  induction n generalizing u s ambient with
  | zero => exact ⟨rfl, h⟩
  | succ n ih =>
    rw [sharedLoop, shellLoop]
    rcases h.round program (ambient 0) with
      ⟨hwait, hwait'⟩ | ⟨r, u', s', hround, hround', hnext⟩
    · rw [hwait, hwait']
      exact ⟨rfl, h⟩
    · rw [hround, hround']
      obtain ⟨hrounds, hfollows⟩ := ih hnext fun i => ambient (i + 1)
      exact ⟨congrArg (List.cons r) hrounds, hfollows⟩

theorem Follows.run (h : Follows others u s) (ambient : Nat → Ambient) :
    (sharedRun program others ambient u).1 = (shellRun program ambient s).1 ∧
      Follows others (sharedRun program others ambient u).2 (shellRun program ambient s).2 := by
  have hgreeting : Follows others { u with display := greeting.runAmong others u.display }
      { s with screen := VgaCall.run greeting s.screen } :=
    ⟨h.display.runAmong greeting, h.buf, h.shift, h.codes, h.fs⟩
  have hlength : u.codes.length = s.codes.length := congrArg List.length h.codes
  rw [sharedRun, shellRun, hlength]
  exact hgreeting.loop _ ambient

theorem follows_share (hon : OnScreen s.screen) : Follows others s.share s :=
  ⟨⟨hon, .inl rfl, fun _ => rfl⟩, rfl, rfl, rfl, rfl⟩

end Follows

/-! ## The colour between two commands -/

section Colour

variable {program : Program} {ambient : Ambient} {s s' : Session} {r : Round}

/-- A round prompts and echoes in the colour it finds, and its command leaves its own. -/
theorem curAttr_round (h : s.round program ambient = some (r, s')) :
    s'.screen.curAttr = (shellDispatch r.line.text).attr s.screen.curAttr := by
  have hecho : (s.call.run vgaPutchar s.shift s.codes).Alike
      (fun d (_ : Screen) => d.curAttr = s.screen.curAttr)
      (s.call.run vgaPutchar s.shift s.codes) :=
    Console.readlineLoop_alike (fun c d _ hd => (curAttr_vgaPutchar c d).trans hd) _ _ _ _ _ _
      (curAttr_run prompt s.screen)
  unfold Session.round at h
  dsimp only at h
  split at h
  · cases h
    dsimp only
    rw [curAttr_runVga, attr_exec, hecho.display]
  · cases h

theorem curAttr_shellLoop {n : Nat} (ambient : Nat → Ambient) (s : Session) :
    (shellLoop program n ambient s).2.screen.curAttr =
      (shellLoop program n ambient s).1.foldl
        (fun attr r => (shellDispatch r.line.text).attr attr) s.screen.curAttr := by
  induction n generalizing s ambient with
  | zero => rfl
  | succ n ih =>
    rw [shellLoop]
    cases hround : s.round program (ambient 0) with
    | none => rfl
    | some next =>
      dsimp only
      rw [ih, curAttr_round hround, List.foldl_cons]

theorem curAttr_shellRun (program : Program) (ambient : Nat → Ambient) (s : Session) :
    (shellRun program ambient s).2.screen.curAttr =
      (shellRun program ambient s).1.foldl
        (fun attr r => (shellDispatch r.line.text).attr attr) s.screen.curAttr := by
  have hgreeting : (VgaCall.run greeting s.screen).curAttr = s.screen.curAttr :=
    curAttr_run greeting s.screen
  refine (curAttr_shellLoop ambient { s with screen := VgaCall.run greeting s.screen }).trans ?_
  exact congrArg (fun attr => List.foldl _ attr _) hgreeting

end Colour

/-- From the start of the kernel, whatever is typed and whatever the other processes draw between
the uses of the screen by the shell: the rounds and the files are those of the shell alone, and no
descriptor is open between two commands. The cursor is on the screen then, and all cells written
lie in the frame buffer. The colour is the one that the last command that changes it has left, or
one that the others have set. If they draw nothing, the screen is that of the shell alone. -/
theorem session_safe (program : Program) (others : Nat → List Drawing) (ambient : Nat → Ambient)
    (s : Session) (h : s.screen.vga.writes = []) :
    let t := shellRun program ambient (kernelStart s)
    let u := sharedRun program others ambient (kernelStart s).share
    u.1 = t.1 ∧ u.2.fs = t.2.fs ∧ Quiet u.2.fs ∧ OnScreen u.2.display.screen ∧
      ColourAmong others (u.1.foldl (fun attr r => (shellDispatch r.line.text).attr attr)
        (vgaAttr .lightGrey .black)) u.2.display.screen ∧
      ((∀ n, others n = []) → u.2.display.screen = t.2.screen) := by
  intro t u
  have hwithin : s.screen.vga.Within InFrame := by
    intro i hi
    rw [h] at hi
    cases hi
  obtain ⟨hrounds, hfollows⟩ : u.1 = t.1 ∧ Follows others u.2 t.2 :=
    (follows_share (onScreen_kernelStart hwithin)).run ambient
  have hquiet : Quiet t.2.fs := by
    rw [(ranAll_shellRun program ambient (kernelStart s)).fs]
    exact (quiet_fsInit s.fs).afterLines _
  have hcolour : t.2.screen.curAttr =
      t.1.foldl (fun attr r => (shellDispatch r.line.text).attr attr)
        (vgaAttr .lightGrey .black) := by
    rw [← curAttr_kernelStart s]
    exact curAttr_shellRun program ambient (kernelStart s)
  refine ⟨hrounds, hfollows.fs, hfollows.fs ▸ hquiet, hfollows.display.onScreen, ?_,
    hfollows.display.alone⟩
  rw [hrounds, ← hcolour]
  exact hfollows.display.colour

/-- What `task_a` and `task_b` draw in a round. -/
def taskDraws (fg : VgaColor) (text : String) : List Drawing :=
  .setColor fg .black :: (chars text).map .putchar

/-- The keys of `ps` and Enter. `task_a` comes in within the prompt, and `task_b` within the head of
the table. -/
theorem session_safe_ps :
    let others (n : Nat) : List Drawing :=
      if n = 60 then taskDraws .lightCyan "[A] "
      else if n = 90 then taskDraws .lightMagenta "[B] " else []
    let s := kernelStart (sampleSession [0x19, 0x1F, 0x1C])
    let u := sharedRun sampleProgram others (fun _ => sampleAmbient) s.share
    u.1 = (shellRun sampleProgram (fun _ => sampleAmbient) s).1 ∧ OnScreen u.2.display.screen := by
  intro others s u
  obtain ⟨hrounds, -, -, hon, -⟩ := session_safe sampleProgram others (fun _ => sampleAmbient)
    (sampleSession [0x19, 0x1F, 0x1C]) rfl
  exact ⟨hrounds, hon⟩

end SengOs.Shell
