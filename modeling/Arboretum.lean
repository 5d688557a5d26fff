import Arboretum.Decimal.Significant
import Arboretum.Journal.Line
import Arboretum.Proofs.Force.Gestures
import Arboretum.Proofs.Force.Gusts
import Arboretum.Proofs.Force.Superposition
import Arboretum.Proofs.Garden.Punctual
import Arboretum.Proofs.Grammar.Rewriting
import Arboretum.Proofs.Grammar.Weighted
import Arboretum.Proofs.Graph.Angles
import Arboretum.Proofs.Graph.Braces
import Arboretum.Proofs.Graph.Grid
import Arboretum.Proofs.Graph.Hanging
import Arboretum.Proofs.Graph.Losses
import Arboretum.Proofs.Graph.Plot
import Arboretum.Proofs.Graph.Roots
import Arboretum.Proofs.Growth.Attempts
import Arboretum.Proofs.Growth.Connected
import Arboretum.Proofs.Growth.Finish
import Arboretum.Proofs.Growth.Pace
import Arboretum.Proofs.Growth.Retries
import Arboretum.Proofs.Growth.Reveal
import Arboretum.Proofs.Growth.Topology
import Arboretum.Proofs.Growth.Whole
import Arboretum.Proofs.Plant.Fading
import Arboretum.Proofs.Plant.Views
import Arboretum.Proofs.Session.Ticks
import Arboretum.Proofs.Walk.Brackets
import Arboretum.Proofs.Walk.Branch
import Arboretum.Proofs.Walk.Colours
import Arboretum.Proofs.World.Divisors
import Arboretum.Proofs.World.Family
import Arboretum.Proofs.World.Foreign
import Arboretum.Proofs.World.Momentum
import Arboretum.Proofs.World.Pinned
import Arboretum.Proofs.World.Reorder
import Arboretum.Proofs.World.Restrict
import Arboretum.Proofs.World.Settling
import Arboretum.Proofs.World.Store
import Arboretum.Proofs.World.Wires
