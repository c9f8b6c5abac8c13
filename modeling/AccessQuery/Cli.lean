/-
**The command line.**

The tool takes a query and, optionally, the path of a tree document.  It prints the query in its
canonical form, step by step, and then the attributes of every match in the tree.

Main definitions:

* `AccessQuery.Cli.Outcome` — what a run prints, and its exit code;
* `AccessQuery.Cli.run` — a run, for given arguments and a given way to read documents.
-/

import AccessQuery.Json.Printer
import AccessQuery.Lookup
import AccessQuery.Query.Printer
import AccessQuery.Tree.Fixture

set_option relaxedAutoImplicit false
set_option autoImplicit false

namespace AccessQuery.Cli

/-- What a run prints, and its exit code. -/
structure Outcome where
  code : UInt8
  output : String
  errors : String
  deriving DecidableEq, Repr

/-- The name by which the tool calls itself where it has not been told its own. -/
def defaultProgram : String := "axpath"

/-- How to call the tool. -/
def usage (program : String) : String :=
  "Parses an accessibility query and optionally resolves it against a tree.\n\n" ++
  "Usage: " ++ program ++ " <query> [path/to/tree.json]\n\n" ++
  "Example:\n" ++
  "  " ++ program ++ " \"//panel/check box[@name='Chin']\" tree.json\n"

/-- The session in which documents are resolved. -/
def session : SessionId := ⟨1⟩

/-- The name of an axis. -/
def axisName : Axis → String
  | .self => "SelfAxis"
  | .child => "Child"
  | .descendant => "Descendant"
  | .any => "Any"

/-- The lines about the steps of a query, of which the first has a number. -/
def stepLines (number : Nat) : List Step → String
  | [] => ""
  | step :: rest =>
      "  step " ++ String.ofList (Text.natural number) ++ ": " ++ axisName step.axis ++ " " ++
        step.display ++ "\n" ++ stepLines (number + 1) rest

/-- The lines about a query. -/
def queryLines (query : Query) : String :=
  "Query: " ++ query.display ++ "\n" ++ stepLines 1 query.steps

/-- The attributes of every node that a query selects below a root. -/
def matchesBelow {tree : Tree} (rootNode : tree.NodeId) (query : Query) :
    Except LookupError (List Snapshot) :=
  let lookup : SessionM tree (Except LookupError (List Snapshot)) := do
    let root ← Session.onBridge (Bridge.acquire rootNode)
    Session.adopt root
    match ← Session.resolve {} query root with
    | .error e => return .error (.resolution e)
    | .ok found =>
        let snapshots ← Session.snapshots found
        Session.releaseAll found
        Session.release root
        return .ok snapshots
  (lookup (Session.new session (Bridge.new tree session))).1

/-- The line about an error. -/
def errorLine (message : String) : String :=
  "Error: " ++ message ++ "\n"

/-- Looks a query up in a document. -/
def runIn (query : Query) (document : Except String String) : Outcome :=
  let found := do
    let text ← document.mapError Fixture.Problem.unreadable
    match Fixture.read? text with
    | some fixture => .ok fixture
    | none => .error .malformed
  match found with
  | .error problem =>
      ⟨1, queryLines query, errorLine ("Tree fixture could not be loaded: " ++ problem.message)⟩
  | .ok fixture =>
      match matchesBelow fixture.root query with
      | .error e => ⟨1, queryLines query, errorLine e.message⟩
      | .ok snapshots =>
          ⟨0, queryLines query ++ Json.pretty 0 (.array (snapshots.map Json.ofSnapshot)) ++ "\n",
            String.ofList (Text.natural snapshots.length) ++ " matches\n"⟩

/-- A run of the tool. -/
def run (program : String) (args : List String)
    (readDocument : String → Except String String) : Outcome :=
  match args with
  | [text] =>
      match Query.parse text with
      | .error e => ⟨1, "", errorLine (LookupError.query e).message⟩
      | .ok query => ⟨0, queryLines query, ""⟩
  | [text, path] =>
      match Query.parse text with
      | .error e => ⟨1, "", errorLine (LookupError.query e).message⟩
      | .ok query => runIn query (readDocument path)
  | _ => ⟨1, "", usage program⟩

end AccessQuery.Cli
