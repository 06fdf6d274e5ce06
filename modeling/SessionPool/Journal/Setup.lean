import SessionPool.Settings

/-!
# Setting up the journal

The settings ask for a console, for a file, for both or for neither.  Opening either may fail.  A
file that cannot be opened is reported and done without; a console that cannot be opened ends the
attempt, and the journal stays as it was.  A journal that would go nowhere goes to the console.
-/

namespace SessionPool
namespace Journal

/-- A place that entries are written to.  A file is appended to, never emptied. -/
inductive Sink where
  | console
  | file (path : Text)
  deriving DecidableEq

/-- A journal that has been set up: its name, the level from which on entries are kept, which every
sink shares, and its sinks in order. -/
structure Logger where
  name : Text
  level : Level
  sinks : List Sink
  deriving DecidableEq

/-- Which openings fail: that of every file, and that of every console. -/
structure Trouble where
  file : Bool := false
  console : Bool := false

/-- What setting up the journal leads to: what is complained about, how entries are laid out from
now on, and the new journal, if there is one. -/
structure Setup where
  complaints : Text := []
  layout : Text := []
  logger : Option Logger := none

/-- The name of every journal that is set up. -/
def loggerName : Text := Text.ascii "ftp-pool"

/-- How entries are laid out: time, level and text. -/
def entryLayout : Text := Text.ascii "[%Y-%m-%d %H:%M:%S.%e] [%^%l%$] %v"

/-- The sinks that the settings ask for and that can be opened, and the complaints about the
others; none if a console is asked for and cannot be opened. -/
def openSinks (settings : JournalSettings) (trouble : Trouble) : Text × Option (List Sink) :=
  if settings.console && trouble.console then ([], none)
  else
    let consoles := if settings.console then [Sink.console] else []
    let complaints :=
      if !settings.file.isEmpty && trouble.file then
        Text.ascii "Cannot open log file " ++ settings.file
          ++ Text.ascii ": file sink failed" ++ [Text.lineFeed]
      else []
    let files := if !settings.file.isEmpty && !trouble.file then [Sink.file settings.file] else []
    match consoles ++ files with
    | [] => (complaints, if trouble.console then none else some [Sink.console])
    | sinks => (complaints, some sinks)

/-- Sets up the journal. -/
def setUp (settings : JournalSettings) (trouble : Trouble) : Setup :=
  match openSinks settings trouble with
  | (complaints, none) =>
    { complaints := complaints ++ Text.ascii "Log initialization failed: console sink failed"
        ++ [Text.lineFeed] }
  | (complaints, some sinks) =>
    { complaints, layout := entryLayout
      logger := some ⟨loggerName, Level.ofText settings.level, sinks⟩ }

end Journal
end SessionPool
